import Kvi.Acpi.Tables
import Kvi.Library.Tiles
import Kvi.Library.Trail

/-! The processors of the MADT.

The table is a header of 44 bytes and entries one behind the other, each with its
type and its length in front. `acpi_create_cpulist` goes through them twice, to
count the processors and to copy them. The first pass leaves out those that are
not enabled and the second does not, so that the list is right when there are
none of these; and both passes stop only where they meet the end of the table
exactly. -/
namespace Kvi.Acpi

/-! ### The entries -/

/-- The entry behind the one at `e`. -/
def nextEntry (m : Memory) (e : Nat) : Nat := u64 (e + field m e 1 1)

/-- `entry->entry_type == 0` -/
def processor (m : Memory) (e : Nat) : Bool := field m e 0 1 = 0

/-- `entry->entry_type == 0 && (entry->lapic.flags & 1)` -/
def enabled (m : Memory) (e : Nat) : Bool := field m e 0 1 = 0 ∧ field m e 4 4 &&& 1 ≠ 0

/-- `entry->lapic.proc_id` and `entry->lapic.apic_id` -/
def cpuInfo (m : Memory) (e : Nat) : CpuInfo := ⟨m (u64 (e + 2)), m (u64 (e + 3))⟩

/-- The length of the entry `off` bytes behind the table. -/
def lengthAt (m : Memory) (madt off : Nat) : Nat := field m (u64 (madt + off)) 1 1

/-- The addresses of the entries at the offsets `offs`. -/
def entries (madt : Nat) (offs : List Nat) : List Nat := offs.map fun off => u64 (madt + off)

/-- The entries at `offs` fill the table behind its fixed part. -/
structure WellFormed (m : Memory) (madt : Nat) (offs : List Nat) : Prop where
  tiles : Tiles (lengthAt m madt) 44 offs (field m madt 4 4)
  long : ∀ off ∈ offs, 2 ≤ lengthAt m madt off

instance (m : Memory) (madt : Nat) (offs : List Nat) : Decidable (WellFormed m madt offs) :=
  decidable_of_iff (Tiles (lengthAt m madt) 44 offs (field m madt 4 4) ∧
    ∀ off ∈ offs, 2 ≤ lengthAt m madt off) ⟨fun h => ⟨h.1, h.2⟩, fun h => ⟨h.tiles, h.long⟩⟩

/-- The list of the enabled processors among the entries `es`, of which nothing is written behind
its end. -/
structure Lists (m : Memory) (es : List Nat) (l : CpuList) : Prop where
  num : l.num = (es.filter (enabled m)).length
  info : l.info.take l.num = (es.filter (enabled m)).map (cpuInfo m)
  within : l.info.length ≤ l.num

variable {m : Memory} {madt last e off n r : Nat} {offs es : List Nat} {info info' : List CpuInfo}

theorem nextEntry_at (m : Memory) (madt off : Nat) :
    nextEntry m (u64 (madt + off)) = u64 (madt + (off + lengthAt m madt off)) := by
  rw [nextEntry, lengthAt]
  unfold u64
  omega

/-- Offsets that are not too far apart are at different addresses. -/
theorem u64_add_inj {p a b : Nat} (ha : a < 2 ^ 64) (hb : b < 2 ^ 64) :
    u64 (p + a) = u64 (p + b) ↔ a = b := by
  unfold u64
  omega

theorem length_lt (m : Memory) (madt : Nat) : field m madt 4 4 < 2 ^ 32 := Memory.load_lt ..

theorem trail_of_tiles (h : Tiles (lengthAt m madt) off offs n) (hn : n < 2 ^ 64) :
    Trail (nextEntry m) (u64 (madt + n)) (u64 (madt + off)) (entries madt offs) := by
  induction offs generalizing off with
  | nil =>
    have heq : off = n := h
    rw [heq]
    exact .done
  | cons t offs ih =>
    have hin := h.within (List.mem_cons_self ..)
    obtain ⟨rfl, hpos, hrest⟩ := h
    refine .visit ?_ ?_
    · intro heq
      have := (u64_add_inj (by omega) hn).mp heq
      omega
    · rw [nextEntry_at]
      exact ih hrest

theorem processor_iff : processor m e = true ↔ field m e 0 1 = 0 := decide_eq_true_iff

theorem enabled_iff : enabled m e = true ↔ field m e 0 1 = 0 ∧ field m e 4 4 &&& 1 ≠ 0 :=
  decide_eq_true_iff

/-! ### The two passes -/

theorem count_cons (m : Memory) (e n : Nat) (es : List Nat) :
    (if field m e 0 1 = 0 ∧ field m e 4 4 &&& 1 ≠ 0 then n + 1 else n) +
      (es.filter (enabled m)).length = n + ((e :: es).filter (enabled m)).length := by
  rw [List.filter_cons]
  by_cases he : field m e 0 1 = 0 ∧ field m e 4 4 &&& 1 ≠ 0
  · rw [if_pos he, if_pos (enabled_iff.mpr he), List.length_cons]
    omega
  · rw [if_neg he, if_neg (mt enabled_iff.mp he)]

theorem countCpus_eq_some : countCpus m last e n = some r ↔
    ∃ es, Trail (nextEntry m) last e es ∧ r = n + (es.filter (enabled m)).length := by
  constructor
  · intro hnow
    refine Memory.countCpus.partial_correctness m last
      (fun e n r => ∃ es, Trail (nextEntry m) last e es ∧ r = n + (es.filter (enabled m)).length)
      (fun loop ih e n r hnow => ?_) e n r hnow
    split at hnow
    · next hend =>
      obtain rfl := Option.some.inj hnow
      rw [hend]
      exact ⟨[], .done, rfl⟩
    · next hmore =>
      obtain ⟨es, htrail, rfl⟩ := ih _ _ _ hnow
      exact ⟨e :: es, .visit hmore htrail, count_cons m e n es⟩
  · intro h
    obtain ⟨es, htrail, rfl⟩ := h
    induction htrail generalizing n with
    | done =>
      rw [countCpus, if_pos rfl]
      rfl
    | @visit e es more rest ih =>
      rw [countCpus, if_neg more, ← count_cons]
      exact ih

theorem fill_cons (m : Memory) (e : Nat) (es : List Nat) (info : List CpuInfo) :
    (if field m e 0 1 = 0 then info ++ [⟨m (u64 (e + 2)), m (u64 (e + 3))⟩] else info) ++
      (es.filter (processor m)).map (cpuInfo m) =
        info ++ ((e :: es).filter (processor m)).map (cpuInfo m) := by
  rw [List.filter_cons]
  by_cases he : field m e 0 1 = 0
  · rw [if_pos he, if_pos (processor_iff.mpr he), List.append_assoc, List.map_cons]
    rfl
  · rw [if_neg he, if_neg (mt processor_iff.mp he)]

theorem fillCpus_eq_some : fillCpus m last e info = some info' ↔
    ∃ es, Trail (nextEntry m) last e es ∧
      info' = info ++ (es.filter (processor m)).map (cpuInfo m) := by
  constructor
  · intro hnow
    refine Memory.fillCpus.partial_correctness m last
      (fun e info info' => ∃ es, Trail (nextEntry m) last e es ∧
        info' = info ++ (es.filter (processor m)).map (cpuInfo m))
      (fun loop ih e info info' hnow => ?_) e info info' hnow
    split at hnow
    · next hend =>
      obtain rfl := Option.some.inj hnow
      rw [hend]
      exact ⟨[], .done, (List.append_nil _).symm⟩
    · next hmore =>
      obtain ⟨es, htrail, rfl⟩ := ih _ _ _ hnow
      exact ⟨e :: es, .visit hmore htrail, fill_cons m e es info⟩
  · intro h
    obtain ⟨es, htrail, rfl⟩ := h
    induction htrail generalizing info with
    | done =>
      rw [fillCpus, if_pos rfl, List.filter_nil, List.map_nil, List.append_nil]
    | @visit e es more rest ih =>
      rw [fillCpus, if_neg more, ← fill_cons]
      exact ih

theorem acpiCreateCpulist_eq
    (h : Trail (nextEntry m) (u64 (madt + field m madt 4 4)) (u64 (madt + 44)) es) :
    acpiCreateCpulist m madt =
      some ⟨u16 (es.filter (enabled m)).length, (es.filter (processor m)).map (cpuInfo m)⟩ := by
  have hcount : countCpus m _ _ 0 = some (0 + _) := countCpus_eq_some.mpr ⟨es, h, rfl⟩
  have hfill : fillCpus m _ _ [] = some ([] ++ _) := fillCpus_eq_some.mpr ⟨es, h, rfl⟩
  rw [acpiCreateCpulist, hcount, hfill, Nat.zero_add]
  rfl

/-! ### The list -/

/-- The first pass selects among what the second selects. -/
theorem filter_enabled (m : Memory) (es : List Nat) :
    (es.filter (processor m)).filter (enabled m) = es.filter (enabled m) := by
  rw [List.filter_filter]
  apply List.filter_congr
  intro e _
  cases he : enabled m e with
  | false => rfl
  | true => rw [processor_iff.mpr (enabled_iff.mp he).1]; rfl

/-- The list is right exactly when every processor of the table is enabled and their number fits in
16 bits. -/
theorem processors_listed_iff (h : WellFormed m madt offs) :
    (∃ l, acpiCreateCpulist m madt = some l ∧ Lists m (entries madt offs) l) ↔
      (∀ e ∈ entries madt offs, processor m e → enabled m e) ∧
        ((entries madt offs).filter (processor m)).length < 2 ^ 16 := by
  have hlen := length_lt m madt
  rw [acpiCreateCpulist_eq (trail_of_tiles h.tiles (by omega))]
  obtain ⟨es, hes⟩ : ∃ es, es = entries madt offs := ⟨_, rfl⟩
  rw [← hes]
  constructor
  · intro hlists
    obtain ⟨l, hl, hlists⟩ := hlists
    obtain rfl := Option.some.inj hl
    have hnum : u16 (es.filter (enabled m)).length = (es.filter (enabled m)).length := hlists.num
    have hwithin := hlists.within
    rw [List.length_map, hnum, ← filter_enabled] at hwithin
    have hall := List.length_filter_eq_length_iff.mp
      (Nat.le_antisymm (List.length_filter_le ..) hwithin)
    refine ⟨fun e he hproc => hall e (List.mem_filter.mpr ⟨he, hproc⟩), ?_⟩
    rw [filter_enabled, ← hnum] at hwithin
    exact Nat.lt_of_le_of_lt hwithin (Nat.mod_lt _ (by decide))
  · intro hcond
    obtain ⟨hall, hlt⟩ := hcond
    have hsame : es.filter (enabled m) = es.filter (processor m) := by
      rw [← filter_enabled, List.filter_eq_self]
      intro e he
      obtain ⟨hmem, hproc⟩ := List.mem_filter.mp he
      exact hall e hmem hproc
    have hu16 : u16 (es.filter (processor m)).length = (es.filter (processor m)).length :=
      Nat.mod_eq_of_lt hlt
    refine ⟨_, rfl, ?_, ?_, ?_⟩
    · rw [hsame, hu16]
    · rw [hsame, hu16, List.take_of_length_le (Nat.le_of_eq (List.length_map _))]
    · rw [hsame, hu16, List.length_map]

/-- A MADT at 0x1000 with two entries. -/
def twoEntries (e₁ e₂ : Nat) : Memory :=
  let m : Memory := fun _ => 0
  let m := m.store 0x1004 4 60
  (m.store 0x102c 8 e₁).store 0x1034 8 e₂

theorem processors_listed_two : ∃ l, acpiCreateCpulist (twoEntries 0x100000800 0x102010800) 0x1000 = some l ∧
    Lists (twoEntries 0x100000800 0x102010800) (entries 0x1000 [44, 52]) l :=
  (processors_listed_iff (by decide +kernel)).mpr (by decide +kernel)

/-- The first processor is not enabled, the second is. -/
theorem disabled_listed : WellFormed (twoEntries 0x800 0x102010800) 0x1000 [44, 52] ∧
    acpiCreateCpulist (twoEntries 0x800 0x102010800) 0x1000 = some ⟨1, [⟨0, 0⟩, ⟨1, 2⟩]⟩ ∧
    ¬ ∃ l, acpiCreateCpulist (twoEntries 0x800 0x102010800) 0x1000 = some l ∧
      Lists (twoEntries 0x800 0x102010800) (entries 0x1000 [44, 52]) l := by
  have hwell : WellFormed (twoEntries 0x800 0x102010800) 0x1000 [44, 52] := by decide +kernel
  have hlist : acpiCreateCpulist (twoEntries 0x800 0x102010800) 0x1000 =
      some ⟨1, [⟨0, 0⟩, ⟨1, 2⟩]⟩ := by
    rw [acpiCreateCpulist_eq (trail_of_tiles hwell.tiles (by decide +kernel))]
    decide +kernel
  refine ⟨hwell, hlist, fun hex => ?_⟩
  obtain ⟨l, hl, hlists⟩ := hex
  obtain rfl := Option.some.inj (hlist.symm.trans hl)
  exact absurd hlists.within (by decide)

/-! ### What the passes read -/

/-- `n` bytes, `off` bytes behind `e`. -/
def bytesAt (e off n : Nat) : List Nat := (List.range n).map fun i => u64 (e + (off + i))

/-- What the first pass reads of an entry: type and length, and the flags of a processor. -/
def countReads (m : Memory) (e : Nat) : List Nat :=
  bytesAt e 0 1 ++ bytesAt e 1 1 ++ if processor m e then bytesAt e 4 4 else []

/-- What the second pass reads: type and length, and the two ids of a processor. -/
def fillReads (m : Memory) (e : Nat) : List Nat :=
  bytesAt e 0 1 ++ bytesAt e 1 1 ++ if processor m e then bytesAt e 2 2 else []

/-- A byte of the table. -/
def Inside (m : Memory) (madt a : Nat) : Prop := ∃ i < field m madt 4 4, a = u64 (madt + i)

/-- Both passes end, and all they read of the entries is in the table. -/
structure StaysInside (m : Memory) (madt : Nat) : Prop where
  counted : ∃ n, countCpus m (u64 (madt + field m madt 4 4)) (u64 (madt + 44)) 0 = some n
  filled : ∃ info, fillCpus m (u64 (madt + field m madt 4 4)) (u64 (madt + 44)) [] = some info
  reads : ∀ e, Visits (nextEntry m) (u64 (madt + field m madt 4 4)) (u64 (madt + 44)) e →
    ∀ a ∈ countReads m e ++ fillReads m e, Inside m madt a

/-- The entries at `offs` fill the table, and each has in it the fields that its type asks for. -/
structure Sound (m : Memory) (madt : Nat) (offs : List Nat) : Prop where
  tiles : Tiles (lengthAt m madt) 44 offs (field m madt 4 4)
  header : ∀ off ∈ offs, off + 2 ≤ field m madt 4 4
  lapic : ∀ off ∈ offs, processor m (u64 (madt + off)) → off + 8 ≤ field m madt 4 4

theorem inside_iff (hoff : off < 2 ^ 64) : Inside m madt (u64 (madt + off)) ↔ off < field m madt 4 4 := by
  have hlen := length_lt m madt
  constructor
  · intro h
    obtain ⟨i, hi, heq⟩ := h
    rwa [(u64_add_inj hoff (by omega)).mp heq]
  · intro h
    exact ⟨off, h, rfl⟩

/-- A field is in the table when its last byte is. -/
theorem bytesAt_inside_iff {k : Nat} (hn : 0 < n) (hfits : off + (k + n) ≤ 2 ^ 64) :
    (∀ a ∈ bytesAt (u64 (madt + off)) k n, Inside m madt a) ↔
      off + (k + n) ≤ field m madt 4 4 := by
  have hat : ∀ i < n, Inside m madt (u64 (u64 (madt + off) + (k + i))) ↔
      off + (k + i) < field m madt 4 4 := by
    intro i hi
    have heq : u64 (u64 (madt + off) + (k + i)) = u64 (madt + (off + (k + i))) := by
      unfold u64
      omega
    rw [heq]
    exact inside_iff (by omega)
  constructor
  · intro h
    have hmem : u64 (u64 (madt + off) + (k + (n - 1))) ∈ bytesAt (u64 (madt + off)) k n :=
      List.mem_map.mpr ⟨n - 1, List.mem_range.mpr (by omega), rfl⟩
    have := (hat (n - 1) (by omega)).mp (h _ hmem)
    omega
  · intro h a ha
    obtain ⟨i, hi, rfl⟩ := List.mem_map.mp ha
    have hi := List.mem_range.mp hi
    exact (hat i hi).mpr (by omega)

/-- The fields of one entry are in the table. -/
theorem reads_inside_iff (hoff : off + 8 ≤ 2 ^ 64) :
    (∀ a ∈ countReads m (u64 (madt + off)) ++ fillReads m (u64 (madt + off)), Inside m madt a) ↔
      off + 2 ≤ field m madt 4 4 ∧
        (processor m (u64 (madt + off)) → off + 8 ≤ field m madt 4 4) := by
  rw [List.forall_mem_append, countReads, fillReads, List.forall_mem_append, List.forall_mem_append,
    List.forall_mem_append, List.forall_mem_append, bytesAt_inside_iff (by decide) (by omega),
    bytesAt_inside_iff (by decide) (by omega)]
  by_cases hproc : processor m (u64 (madt + off)) = true
  · rw [if_pos hproc, if_pos hproc, bytesAt_inside_iff (by decide) (by omega),
      bytesAt_inside_iff (by decide) (by omega)]
    constructor
    · intro h
      exact ⟨h.1.1.2, fun _ => h.1.2⟩
    · intro h
      have := h.2 hproc
      omega
  · rw [if_neg hproc, if_neg hproc]
    constructor
    · intro h
      exact ⟨h.1.1.2, fun hp => absurd hp hproc⟩
    · intro h
      have hnil : ∀ a ∈ ([] : List Nat), Inside m madt a := nofun
      refine ⟨⟨⟨?_, ?_⟩, hnil⟩, ⟨?_, ?_⟩, hnil⟩ <;> omega

theorem Sound.of_trail (hoff : off + 8 ≤ 2 ^ 64)
    (htrail : Trail (nextEntry m) (u64 (madt + field m madt 4 4)) (u64 (madt + off)) es)
    (hreads : ∀ e ∈ es, ∀ a ∈ countReads m e ++ fillReads m e, Inside m madt a) :
    ∃ offs, Tiles (lengthAt m madt) off offs (field m madt 4 4) ∧
      ∀ t ∈ offs, t + 2 ≤ field m madt 4 4 ∧
        (processor m (u64 (madt + t)) → t + 8 ≤ field m madt 4 4) := by
  have hlen := length_lt m madt
  induction es generalizing off with
  | nil =>
    exact ⟨[], (u64_add_inj (by omega) (by omega)).mp htrail.eq_last, nofun⟩
  | cons e es ih =>
    obtain rfl := htrail.head_eq
    have hhere := (reads_inside_iff hoff).mp (hreads _ (List.mem_cons_self ..))
    have hlength : lengthAt m madt off < 256 := Memory.load_lt ..
    have hnext := nextEntry_at m madt off
    have htail := htrail.tail
    rw [hnext] at htail
    have hpos : 0 < lengthAt m madt off := by
      by_contra hzero
      apply htrail.next_ne
      rw [hnext]
      congr 1
      omega
    obtain ⟨offs, htiles, hall⟩ := ih (by omega) htail fun e he => hreads e (List.mem_cons_of_mem _ he)
    refine ⟨off :: offs, ⟨rfl, hpos, htiles⟩, fun t ht => ?_⟩
    rcases List.mem_cons.mp ht with rfl | ht
    · exact hhere
    · exact hall t ht

/-- Both passes end and stay inside the table exactly when its entries are sound. -/
theorem passes_contained_iff (m : Memory) (madt : Nat) :
    StaysInside m madt ↔ ∃ offs, Sound m madt offs := by
  have hlen := length_lt m madt
  constructor
  · intro h
    obtain ⟨n, hn⟩ := h.counted
    obtain ⟨es, htrail, _⟩ := countCpus_eq_some.mp hn
    obtain ⟨offs, htiles, hall⟩ := Sound.of_trail (by decide) htrail fun e he =>
      h.reads e (htrail.visits_iff.mpr he)
    exact ⟨offs, htiles, fun off hoff => (hall off hoff).1, fun off hoff => (hall off hoff).2⟩
  · intro h
    obtain ⟨offs, hsound⟩ := h
    have htrail := trail_of_tiles hsound.tiles (by omega)
    refine ⟨⟨_, countCpus_eq_some.mpr ⟨_, htrail, rfl⟩⟩, ⟨_, fillCpus_eq_some.mpr ⟨_, htrail, rfl⟩⟩,
      fun e he => ?_⟩
    obtain ⟨off, hoff, rfl⟩ := List.mem_map.mp (htrail.visits_iff.mp he)
    have hheader := hsound.header off hoff
    exact (reads_inside_iff (by omega)).mpr ⟨hheader, hsound.lapic off hoff⟩

/-- An entry of length zero: the first pass does not get past it. -/
theorem zero_length_loops :
    countCpus (twoEntries 0 0) (u64 (0x1000 + 60)) (u64 (0x1000 + 44)) 0 = none ∧
      ¬ StaysInside (twoEntries 0 0) 0x1000 := by
  have hlen : field (twoEntries 0 0) 0x1000 4 4 = 60 := by decide +kernel
  have hnext : nextEntry (twoEntries 0 0) (u64 (0x1000 + 44)) = u64 (0x1000 + 44) := by decide +kernel
  have hnone : countCpus (twoEntries 0 0) (u64 (0x1000 + 60)) (u64 (0x1000 + 44)) 0 = none := by
    rw [Option.eq_none_iff_forall_ne_some]
    intro n hn
    obtain ⟨es, htrail, _⟩ := countCpus_eq_some.mp hn
    cases es with
    | nil => exact absurd htrail.eq_last (by decide)
    | cons e es =>
      obtain rfl := htrail.head_eq
      exact htrail.next_ne hnext
  refine ⟨hnone, fun hinside => ?_⟩
  obtain ⟨n, hn⟩ := hinside.counted
  rw [hlen, hnone] at hn
  exact Option.some_ne_none _ hn.symm

end Kvi.Acpi
