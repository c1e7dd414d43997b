import Kvi.Init.Order

/-! The order of shutdown.

After `main` the stages are walked backwards over the same list. `init_init` has
sorted the second table the other way round, so a stage's scan meets its modules
in the reverse order of the initialisation. But the loop before `main` has left
`i` one behind the `NULL` at the end of the list, and the walk starts with the
`NULL`: `init_scan` reads the name of a stage from address 0, and calls every
module whose id begins with what it finds there. -/
namespace Kvi.Init

/-- One module: what `register_init` and `register_deinit` put into the two tables. -/
structure Module where
  filename : CString
  id : CString
  init : Nat
  deinit : Nat

def Module.initData (m : Module) : InitData := ⟨m.filename, m.id, m.init⟩
def Module.deinitData (m : Module) : InitData := ⟨m.filename, m.id, m.deinit⟩

/-- The tables of the modules, each in the order of the linker. -/
structure Registered {n m : Nat} (modules : List Module) (t : Tables n m) : Prop where
  init : t.initData.toList.Perm (modules.map Module.initData)
  deinit : t.deinitData.toList.Perm (modules.map Module.deinitData)
  distinct : (modules.map fun m => (m.id, m.filename)).Nodup

/-- The ids that `init_scan` was called with during shutdown, and the calls it made. -/
structure Trace where
  scanned : List (Option CString)
  calls : List InitData

/-- The string behind a pointer: from `NULL` on, memory holds `low` and a NUL. -/
def nameAt (low : CString) : Option CString → CString
  | some id => id
  | none => low

def initDoDeinit {n m : Nat} (low : CString) (t : Tables n m) (id : Option CString) (r : Trace) :
    Trace :=
  ⟨r.scanned ++ [id], initScan (nameAt low id) t.deinitData.toList r.calls⟩

/-- `while (init_list[i++])`, with the `i` it leaves. -/
def initUp {n m : Nat} (t : Tables n m) :
    List (Option CString) → Nat → List InitData → Nat × List InitData
  | some id :: rest, i, calls => initUp t rest (i + 1) (initDoInit t id calls)
  | _, i, calls => (i + 1, calls)

/-- `while (--i >= 0)` -/
def deinitDown {n m : Nat} (low : CString) (t : Tables n m) : Nat → Trace → Trace
  | 0, r => r
  | i + 1, r => deinitDown low t i (initDoDeinit low t (initList.getD i none) r)

/-- `init`: the calls before `main`, and what happens after it. -/
def init {n m : Nat} (low : CString) (t : Tables n m) : List InitData × Trace :=
  let t := initInit t
  let (i, calls) := initUp t initList 0 []
  (calls, deinitDown low t i ⟨[], []⟩)

/-- The modules that were initialised are shut down in the reverse order, each once. -/
def Reversed (modules : List Module) (calls : List InitData) (r : Trace) : Prop :=
  ∃ ms : List Module, ms ⊆ modules ∧ ms.Nodup ∧ calls = ms.map Module.initData ∧
    r.calls = ms.reverse.map Module.deinitData

structure Mirrors (modules : List Module) (calls : List InitData) (r : Trace) : Prop where
  reversed : Reversed modules calls r
  stages : ∀ id ∈ r.scanned, id ≠ none ∧ id ∈ initList

variable {n m : Nat} {t : Tables n m} {low id : CString} {modules ms : List Module}
  {records : List InitData}

/-! ### The two tables -/

/-- The index does not matter to the calls. -/
theorem initUp_calls (t : Tables n m) (ids : List (Option CString)) (i : Nat)
    (calls : List InitData) : (initUp t ids i calls).2 = initLoop t ids calls := by
  induction ids generalizing i calls with
  | nil => rfl
  | cons id ids ih =>
    cases id with
    | none => rfl
    | some id => exact ih (i + 1) (initDoInit t id calls)

/-- Before `main` it is the start-up that `init_ordered` is about. -/
theorem init_initPhase (low : CString) (t : Tables n m) : (init low t).1 = (initPhase t).2 :=
  initUp_calls (initInit t) initList 0 []

/-- The second table is sorted the other way round. -/
theorem initInit_descending (t : Tables n m) :
    (initInit t).deinitData.Perm t.deinitData ∧
      (initInit t).deinitData.toList.Pairwise fun p q => key q ≤ key p := by
  have hgt : ∀ p q, (initCmp q p != 0) = true ↔
      OrderDual.toDual (key q) < OrderDual.toDual (key p) := by
    intro p q
    rw [bne_iff_ne, initCmp_iff, OrderDual.toDual_lt_toDual]
  exact exchangeSort_spec hgt t.deinitData

/-- Modules in the order of initialisation. -/
theorem exists_sorted (modules : List Module) : ∃ ms : List Module, ms.Perm modules ∧
    ms.Pairwise fun m m' => key m.initData ≤ key m'.initData := by
  classical
  refine ⟨modules.insertionSort fun m m' => key m.initData ≤ key m'.initData,
    List.perm_insertionSort .., ?_⟩
  have : Std.Total fun m m' : Module => key m.initData ≤ key m'.initData :=
    ⟨fun _ _ => le_total _ _⟩
  have : IsTrans Module fun m m' => key m.initData ≤ key m'.initData :=
    ⟨fun _ _ _ => le_trans⟩
  exact List.pairwise_insertionSort ..

/-- A key tells the id and the file. -/
theorem key_inj {p q : InitData} (h : key p = key q) : p.id = q.id ∧ p.filename = q.filename := by
  have hended : ∀ s s' : CString, ended s.chars = ended s'.chars → s = s' := by
    intro ⟨s, _⟩ ⟨s', _⟩ heq
    have hmap := List.append_cancel_right (show s.map Int8.toInt ++ [0] = s'.map Int8.toInt ++ [0] from heq)
    have hinj : Function.Injective Int8.toInt := fun _ _ => Int8.toInt_inj.mp
    obtain rfl := hinj.list_map hmap
    rfl
  have hpair : (ended p.id.chars, ended p.filename.chars) =
      (ended q.id.chars, ended q.filename.chars) := toLex.injective h
  exact ⟨hended _ _ (Prod.mk.inj hpair).1, hended _ _ (Prod.mk.inj hpair).2⟩

namespace Registered

/-- Two modules with the same key are one. -/
theorem eq_of_key (h : Registered modules t) {a b : Module} (ha : a ∈ modules) (hb : b ∈ modules)
    (heq : key a.initData = key b.initData) : a = b := by
  obtain ⟨hid, hfile⟩ := key_inj heq
  exact List.inj_on_of_nodup_map h.distinct ha hb (Prod.ext hid hfile)

/-- The sorted tables, module by module. -/
theorem sorted (h : Registered modules t) : ∃ ms : List Module, ms.Perm modules ∧
    (initInit t).initData.toList = ms.map Module.initData ∧
    (initInit t).deinitData.toList = ms.reverse.map Module.deinitData := by
  obtain ⟨ms, hms, hsorted⟩ := exists_sorted modules
  obtain ⟨hup, hascending⟩ := initInit_sorted t
  obtain ⟨hdown, hdescending⟩ := initInit_descending t
  have hinit := hup.toList.trans h.init
  have hdeinit := hdown.toList.trans h.deinit
  refine ⟨ms, hms, List.Perm.eq_of_pairwise ?_ (hascending.imp ascending_iff.mp) ?_ ?_,
    List.Perm.eq_of_pairwise ?_ hdescending ?_ ?_⟩
  · intro p q hp hq hpq hqp
    obtain ⟨a, ha, rfl⟩ := List.mem_map.mp (hinit.subset hp)
    obtain ⟨b, hb, rfl⟩ := List.mem_map.mp hq
    rw [h.eq_of_key ha (hms.subset hb) (le_antisymm hpq hqp)]
  · exact List.pairwise_map.mpr hsorted
  · exact hinit.trans (hms.map _).symm
  · intro p q hp hq hpq hqp
    obtain ⟨a, ha, rfl⟩ := List.mem_map.mp (hdeinit.subset hp)
    obtain ⟨b, hb, rfl⟩ := List.mem_map.mp hq
    rw [h.eq_of_key ha (hms.subset (List.mem_reverse.mp hb)) (le_antisymm hqp hpq)]
  · exact List.pairwise_map.mpr (List.pairwise_reverse.mpr hsorted)
  · exact hdeinit.trans (((List.reverse_perm ms).trans hms).map _).symm

/-- The tables of modules that are listed in order. -/
theorem sorted_eq (h : Registered modules t)
    (hs : (modules.map Module.initData).Pairwise Ascending) :
    (initInit t).initData.toList = modules.map Module.initData ∧
      (initInit t).deinitData.toList = modules.reverse.map Module.deinitData := by
  obtain ⟨ms, hms, hinit, hdeinit⟩ := h.sorted
  have hascending := (initInit_sorted t).2
  rw [hinit] at hascending
  have hkeys : ∀ l : List Module, (l.map Module.initData).Pairwise Ascending →
      l.Pairwise fun a b => key a.initData ≤ key b.initData := by
    intro l hl
    rw [List.pairwise_map] at hl
    exact hl.imp ascending_iff.mp
  have heq : ms = modules := by
    refine hms.eq_of_pairwise ?_ (hkeys ms hascending) (hkeys modules hs)
    intro a b ha hb hab hba
    exact h.eq_of_key (hms.subset ha) hb (le_antisymm hab hba)
  rw [hinit, hdeinit, heq]
  exact ⟨rfl, rfl⟩

end Registered

/-! ### The stages, forwards and backwards -/

/-- The modules of a stage. -/
def stage (id : CString) (ms : List Module) : List Module := ms.filter fun m => Starts id m.initData

theorem stage_init : (ms.map Module.initData).filter (Starts id) =
    (stage id ms).map Module.initData := List.filter_map

theorem stage_deinit : (ms.reverse.map Module.deinitData).filter (Starts id) =
    (stage id ms).reverse.map Module.deinitData := by
  rw [List.filter_map, List.filter_reverse]
  rfl

/-- The modules that are initialised, in order. -/
def staged (ms : List Module) : List Module := stage bsp ms ++ stage driver ms ++ stage ap ms

theorem staged_perm (ms : List Module) : (staged ms).Perm (ms.filter fun m =>
    Starts bsp m.initData || Starts driver m.initData || Starts ap m.initData) := by
  have hbd := filter_append_perm (fun m => Starts bsp m.initData) (fun m => Starts driver m.initData)
    ms fun m => starts_exclusive bsp driver (by decide) (by decide) m.initData
  have hall := filter_append_perm (fun m => Starts bsp m.initData || Starts driver m.initData)
    (fun m => Starts ap m.initData) ms fun m ⟨hor, hap⟩ => by
      rcases Bool.or_eq_true_iff.mp hor with h | h
      · exact starts_exclusive bsp ap (by decide) (by decide) m.initData ⟨h, hap⟩
      · exact starts_exclusive driver ap (by decide) (by decide) m.initData ⟨h, hap⟩
  exact (hbd.append_right _).trans hall

/-- The calls of `init` on sorted tables: shutdown begins with what the bytes at address 0 name. -/
theorem init_calls (low : CString) (hinit : (initInit t).initData.toList = ms.map Module.initData)
    (hdeinit : (initInit t).deinitData.toList = ms.reverse.map Module.deinitData) :
    (init low t).1 = (staged ms).map Module.initData ∧
      (init low t).2.calls =
        (stage low ms).reverse.map Module.deinitData ++
          (staged ms).reverse.map Module.deinitData := by
  constructor
  · show initScan ap (initInit t).initData.toList (initScan driver _ (initScan bsp _ [])) = _
    rw [initScan_eq, initScan_eq, initScan_eq, List.nil_append, hinit, stage_init, stage_init,
      stage_init, ← List.map_append, ← List.map_append]
    rfl
  · show initScan bsp (initInit t).deinitData.toList
      (initScan driver _ (initScan ap _ (initScan low _ []))) = _
    rw [initScan_eq, initScan_eq, initScan_eq, initScan_eq, List.nil_append, hdeinit, stage_deinit,
      stage_deinit, stage_deinit, stage_deinit, staged, List.reverse_append, List.reverse_append,
      List.map_append, List.map_append, List.append_assoc, List.append_assoc]

theorem init_scanned (low : CString) (t : Tables n m) :
    (init low t).2.scanned = [none, some ap, some driver, some bsp] := rfl

/-- Shutdown never mirrors start-up, since the first stage it scans for is `NULL`. The calls are in
the reverse order all the same as long as no id begins with the string at address 0. -/
theorem shutdown_passes_null (h : Registered modules t) (low : CString) :
    ¬ Mirrors modules (init low t).1 (init low t).2 ∧
      (Reversed modules (init low t).1 (init low t).2 ↔
        ∀ m ∈ modules, ¬ low.chars <+: m.id.chars) := by
  obtain ⟨ms, hms, hinit, hdeinit⟩ := h.sorted
  obtain ⟨hup, hdown⟩ := init_calls low hinit hdeinit
  have hlow : stage low ms = [] ↔ ∀ m ∈ modules, ¬ low.chars <+: m.id.chars := by
    rw [stage, List.filter_eq_nil_iff]
    constructor
    · intro hnone m hm hp
      exact hnone m (hms.symm.subset hm) (decide_eq_true hp)
    · intro hnone m hm hp
      exact hnone m (hms.subset hm) (of_decide_eq_true hp)
  refine ⟨fun hmirrors => ?_, ?_⟩
  · have hnull : none ∈ (init low t).2.scanned := by
      rw [init_scanned]
      exact List.mem_cons_self ..
    exact (hmirrors.stages none hnull).1 rfl
  · rw [← hlow]
    constructor
    · -- as many calls after `main` as before it
      intro ⟨ms', _, _, hcalls, hcalls'⟩
      have hlen := congrArg List.length hcalls
      have hlen' := congrArg List.length hcalls'
      rw [hup] at hlen
      rw [hdown] at hlen'
      simp only [List.length_map, List.length_append, List.length_reverse] at hlen hlen'
      exact List.eq_nil_of_length_eq_zero (by omega)
    · intro hnone
      have hnodup : ms.Nodup := hms.symm.nodup h.distinct.of_map
      have hperm := staged_perm ms
      refine ⟨staged ms, fun m hm => ?_, hperm.symm.nodup (hnodup.filter _), hup, ?_⟩
      · exact hms.subset (List.mem_filter.mp (hperm.subset hm)).1
      · rw [hdown, hnone]
        rfl

/-- One module. -/
def only : Module := ⟨cstring ['a'] (by decide), bsp, 1, 2⟩

theorem only_registered : Registered [only] ⟨#v[only.initData], #v[only.deinitData]⟩ :=
  ⟨.refl _, .refl _, by decide⟩

theorem shutdown_passes_null_only :
    ¬ Mirrors [only] (init bsp ⟨#v[only.initData], #v[only.deinitData]⟩).1
      (init bsp ⟨#v[only.initData], #v[only.deinitData]⟩).2 :=
  (shutdown_passes_null only_registered bsp).1

/-- With an empty string at address 0 it is shut down twice. -/
theorem shut_down_twice :
    Registered [only] ⟨#v[only.initData], #v[only.deinitData]⟩ ∧
      (init ⟨[], nofun⟩ ⟨#v[only.initData], #v[only.deinitData]⟩).1 = [only.initData] ∧
      (init ⟨[], nofun⟩ ⟨#v[only.initData], #v[only.deinitData]⟩).2 =
        ⟨[none, some ap, some driver, some bsp], [only.deinitData, only.deinitData]⟩ ∧
      ¬ Mirrors [only] (init ⟨[], nofun⟩ ⟨#v[only.initData], #v[only.deinitData]⟩).1
        (init ⟨[], nofun⟩ ⟨#v[only.initData], #v[only.deinitData]⟩).2 := by
  refine ⟨only_registered, by decide, rfl, fun hmirrors => ?_⟩
  exact (hmirrors.stages none (List.mem_cons_self ..)).1 rfl

end Kvi.Init
