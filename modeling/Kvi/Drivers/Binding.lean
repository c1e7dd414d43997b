import Kvi.Drivers.Pci
import Kvi.Init.Order

/-! The binding of drivers.

`pci_init` is itself one of the functions that `init` calls, the last of its
stage by its id. A driver that is registered before meets every function of the
bus; one that is registered later meets none, since `pci_probe` goes through the
list only once. `Before` is not enough for that: the stages are walked one after
the other, and an id that sorts low may belong to a late stage or to none. -/
namespace Kvi.Drivers
open Init

def driver99 : CString := cstring ['d', 'r', 'i', 'v', 'e', 'r', '9', '9'] (by decide)

/-- All lists are empty before the first call. -/
def State.zero : State := ⟨zeroed, [], [], []⟩

/-- What a function called by `init` does here: `pci_init` probes, the others register drivers. -/
def call (space : Space) (pciInit : InitData) (registers : InitData → List PciDriver) (s : State)
    (r : InitData) : State :=
  if r = pciInit then pciProbe space s
  else (registers r).foldl (fun s driver => pciDriverRegister driver s) s

/-- The calls of `init` up to the end of the driver stage. -/
def driverStage {n m : Nat} (t : Tables n m) : List InitData :=
  let t := initInit t
  initDoInit t driver (initDoInit t bsp [])

/-- The `(id, filename)` of `p` sorts before that of `q`. -/
def Before (p q : InitData) : Prop :=
  strcmp p.id q.id < 0 ∨ strcmp p.id q.id = 0 ∧ strcmp p.filename q.filename < 0

instance (p q : InitData) : Decidable (Before p q) := inferInstanceAs (Decidable (_ ∨ _))

/-- What is in the list of functions and in the log of the calls. -/
structure Bound (space : Space) (drivers : List PciDriver) (s : State) : Prop where
  /-- Every function that answers is listed once, as it is. -/
  listed : ∀ f, s.listed.count f = if f.InRange ∧ f.Present space then 1 else 0
  described : ∀ p ∈ s.devices, Describes space p
  /-- Every driver is called once for each function with an id of its own, and for no other. -/
  calls : ∀ d ∈ drivers, ∀ f,
    s.calls.count (d, f) = if f.InRange ∧ f.Present space ∧ f.Claimed space d then 1 else 0
  known : ∀ e ∈ s.called, e.1 ∈ drivers ∧ e.2 ∈ s.devices

variable {space : Space} {pci r : InitData} {registers : InitData → List PciDriver} {s : State}
  {rs xs ys : List InitData} {ds : List PciDriver} {n m : Nat} {t : Tables n m}

/-! ### The order of the calls -/

theorem before_iff {p q : InitData} : Before p q ↔ key p < key q := by
  rw [Before, key, key, Prod.Lex.toLex_lt_toLex, strcmp_neg, strcmp_neg, strcmp_zero]

theorem not_before_of_ascending {p q : InitData} (h : Ascending p q) : ¬ Before q p := by
  rw [before_iff]
  exact not_lt.mpr (ascending_iff.mp h)

theorem driverStage_eq (t : Tables n m) : driverStage t =
    (initInit t).initData.toList.filter (Starts bsp) ++
      (initInit t).initData.toList.filter (Starts driver) := by
  show initScan driver _ (initScan bsp _ []) = _
  rw [initScan_eq, initScan_eq, List.nil_append]

theorem starts_pci (h : pci.id = driver99) : Starts driver pci = true ∧ Starts bsp pci = false := by
  rw [Starts, Starts, h]
  decide

theorem flatMap_filter {α β : Type} (g : α → List β) (f : α → Bool) (xs : List α)
    (h : ∀ x ∈ xs, g x ≠ [] → f x = true) : (xs.filter f).flatMap g = xs.flatMap g := by
  induction xs with
  | nil => rfl
  | cons x xs ih =>
    have htail := ih fun y hy => h y (List.mem_cons_of_mem _ hy)
    by_cases hx : f x = true
    · rw [List.filter_cons_of_pos hx, List.flatMap_cons, List.flatMap_cons, htail]
    · have hnil : g x = [] := not_not.mp (mt (h x (List.mem_cons_self ..)) hx)
      rw [List.filter_cons_of_neg hx, List.flatMap_cons, hnil, List.nil_append, htail]

/-- The calls before and after that of `pci_init`. -/
structure Split (registers : InitData → List PciDriver) (pci : InitData) (rs before after : List InitData) :
    Prop where
  eq : rs = before ++ pci :: after
  notBefore : pci ∉ before
  notAfter : pci ∉ after
  none : after.flatMap registers = []

/-- All drivers are registered before `pci_init` is called. -/
theorem driverStage_split (hid : pci.id = driver99) (honce : t.initData.toList.count pci = 1)
    (hbefore : ∀ r ∈ t.initData.toList, registers r ≠ [] →
      Before r pci ∧ (Starts bsp r = true ∨ Starts driver r = true)) :
    ∃ before after, Split registers pci (driverStage t) before after ∧
      (before.flatMap registers).Perm (t.initData.toList.flatMap registers) := by
  obtain ⟨hperm, hsorted⟩ := initInit_sorted t
  obtain ⟨hdriver, hbsp⟩ := starts_pci hid
  obtain ⟨T, hT⟩ : ∃ T, (initInit t).initData.toList = T := ⟨_, rfl⟩
  have hp : T.Perm t.initData.toList := hT ▸ hperm.toList
  rw [hT] at hsorted
  have hmem : pci ∈ T := by
    rw [← List.count_pos_iff, hp.count_eq, honce]
    decide
  obtain ⟨xs, ys, rfl⟩ := List.append_of_mem hmem
  have hcount : (xs ++ pci :: ys).count pci = 1 := (hp.count_eq pci).trans honce
  rw [List.count_append, List.count_cons_self] at hcount
  have hxs : pci ∉ xs := List.count_eq_zero.mp (by omega)
  have hys : pci ∉ ys := List.count_eq_zero.mp (by omega)
  have hstage : ∀ r ∈ xs ++ pci :: ys, registers r ≠ [] →
      Before r pci ∧ (Starts bsp r = true ∨ Starts driver r = true) :=
    fun r hr => hbefore r (hp.mem_iff.mp hr)
  -- nothing after `pci_init` in the table registers a driver, nor does `pci_init`
  have hlate : ∀ r ∈ pci :: ys, registers r = [] := by
    intro r hr
    by_contra hne
    have hr' := (hstage r (List.mem_append_right _ hr) hne).1
    rcases List.mem_cons.mp hr with rfl | hr
    · rw [before_iff] at hr'
      exact lt_irrefl _ hr'
    · have hasc := (List.pairwise_cons.mp (List.pairwise_append.mp hsorted).2.1).1 r hr
      exact not_before_of_ascending hasc hr'
  have hnone : ∀ zs : List InitData, zs ⊆ pci :: ys → zs.flatMap registers = [] :=
    fun zs hsub => List.flatMap_eq_nil_iff.mpr fun r hr => hlate r (hsub hr)
  refine ⟨(xs ++ pci :: ys).filter (Starts bsp) ++ xs.filter (Starts driver), ys.filter (Starts driver),
    ⟨?_, ?_, fun hin => hys (List.mem_of_mem_filter hin), ?_⟩, ?_⟩
  · rw [driverStage_eq, hT, List.append_assoc, List.filter_append (p := Starts driver),
      List.filter_cons_of_pos hdriver]
  · rw [List.mem_append, not_or]
    refine ⟨fun hin => ?_, fun hin => hxs (List.mem_of_mem_filter hin)⟩
    rw [List.mem_filter, hbsp] at hin
    exact Bool.false_ne_true hin.2
  · exact hnone _ fun r hr => List.mem_cons_of_mem _ (List.mem_of_mem_filter hr)
  · -- the records that no stage calls register nothing
    have hsplit := filter_append_perm (Starts bsp) (Starts driver) (xs ++ pci :: ys)
      (starts_exclusive bsp driver (by decide) (by decide))
    have hall : ((xs ++ pci :: ys).filter fun r => Starts bsp r || Starts driver r).flatMap registers =
        (xs ++ pci :: ys).flatMap registers :=
      flatMap_filter _ _ _ fun r hr hne => Bool.or_eq_true_iff.mpr (hstage r hr hne).2
    have hrest : (pci :: ys.filter (Starts driver)).flatMap registers = [] :=
      hnone _ (List.cons_subset_cons _ List.filter_sublist.subset)
    have hperm := hsplit.flatMap_right registers
    rw [hall, List.filter_append (p := Starts driver), List.filter_cons_of_pos hdriver, ← List.append_assoc,
      List.flatMap_append, hrest, List.append_nil] at hperm
    exact hperm.trans (hp.flatMap_right registers)

/-! ### The driver stage -/

theorem foldl_register (ds : List PciDriver) (s : State) :
    ds.foldl (fun s driver => pciDriverRegister driver s) s = {s with drivers := ds.reverse ++ s.drivers} := by
  induction ds generalizing s with
  | nil => rfl
  | cons d ds ih =>
    rw [List.foldl_cons, ih, pciDriverRegister, List.reverse_cons, List.append_assoc]
    rfl

/-- The functions called before and after `pci_init` only register drivers. -/
theorem foldl_call (h : pci ∉ rs) (s : State) : rs.foldl (call space pci registers) s =
    {s with drivers := (rs.flatMap registers).reverse ++ s.drivers} := by
  induction rs generalizing s with
  | nil => rfl
  | cons r rs ih =>
    rw [List.mem_cons, not_or] at h
    rw [List.foldl_cons, ih h.2, call, if_neg (Ne.symm h.1), foldl_register, List.flatMap_cons,
      List.reverse_append, List.append_assoc]

theorem foldl_call_none (h : pci ∉ rs) (hnone : rs.flatMap registers = []) (s : State) :
    rs.foldl (call space pci registers) s = s := by
  rw [foldl_call h, hnone]
  rfl

/-- The calls that are due, in the order of the functions. -/
def due (space : Space) (ds : List PciDriver) : List (PciDriver × Place) :=
  (functions.filter fun f => f.Present space).flatMap fun f =>
    (ds.filter fun d => f.Claimed space d).map fun d => (d, f)

theorem mem_due {d : PciDriver} {f : Place} :
    (d, f) ∈ due space ds ↔ d ∈ ds ∧ f.InRange ∧ f.Present space ∧ f.Claimed space d := by
  simp only [due, List.mem_flatMap, List.mem_filter, mem_functions, decide_eq_true_iff, List.mem_map,
    Prod.mk.injEq]
  constructor
  · intro ⟨g, ⟨hg, hpresent⟩, e, ⟨he, hclaimed⟩, heq, heq'⟩
    subst heq heq'
    exact ⟨he, hg, hpresent, hclaimed⟩
  · intro ⟨hd, hf, hpresent, hclaimed⟩
    exact ⟨f, ⟨hf, hpresent⟩, d, ⟨hd, hclaimed⟩, rfl, rfl⟩

theorem nodup_due (hd : ds.Nodup) : (due space ds).Nodup := by
  rw [due, List.nodup_flatMap]
  refine ⟨fun f _ => (hd.filter _).map fun _ _ heq => congrArg Prod.fst heq, ?_⟩
  refine (nodup_functions.filter _).imp fun {f g} hne e he he' => ?_
  obtain ⟨d, _, rfl⟩ := List.mem_map.mp he
  obtain ⟨d', _, heq⟩ := List.mem_map.mp he'
  exact hne (congrArg Prod.snd heq).symm

/-- A probe with the drivers `ds` registered binds them. -/
theorem pciProbe_bound (space : Space) (hd : ds.Nodup) :
    Bound space ds (pciProbe space {State.zero with drivers := ds}) := by
  rw [pciProbe_eq]
  have hall := probedAll space functions (fun f hf => mem_functions.mp hf)
    {State.zero with drivers := ds}
  obtain ⟨s, hs⟩ : ∃ s, functions.foldl (fun s f => probeFunc space f.bus f.dev f.func s)
    {State.zero with drivers := ds} = s := ⟨_, rfl⟩
  rw [hs] at hall ⊢
  have hlisted : s.listed = (functions.filter fun f => f.Present space).reverse :=
    hall.listed.trans (List.append_nil _)
  have hcalls : s.calls = due space ds := hall.calls
  refine ⟨fun f => ?_, hall.described nofun, fun d hmem f => ?_, fun e he => ⟨?_, hall.known nofun e he⟩⟩
  · have hmem : f ∈ (functions.filter fun f => f.Present space).reverse ↔ f.InRange ∧ f.Present space := by
      rw [List.mem_reverse, List.mem_filter, mem_functions, decide_eq_true_iff]
    rw [hlisted, (List.nodup_reverse.mpr (nodup_functions.filter _)).count]
    exact if_congr hmem rfl rfl
  · rw [hcalls, (nodup_due hd).count]
    exact if_congr (mem_due.trans (and_iff_right hmem)) rfl rfl
  · have hin : (e.1, e.2.place) ∈ s.calls := List.mem_map_of_mem he
    rw [hcalls] at hin
    exact (mem_due.mp hin).1

/-- Every driver registered in time is bound to its functions, and to no other. -/
theorem drivers_bound (space : Space) (hid : pci.id = driver99)
    (honce : t.initData.toList.count pci = 1) (hset : (t.initData.toList.flatMap registers).Nodup)
    (hbefore : ∀ r ∈ t.initData.toList, registers r ≠ [] →
      Before r pci ∧ (Starts bsp r = true ∨ Starts driver r = true)) :
    Bound space (t.initData.toList.flatMap registers)
      ((driverStage t).foldl (call space pci registers) State.zero) := by
  obtain ⟨before, after, hsplit, hperm⟩ := driverStage_split hid honce hbefore
  have hmem : ∀ d, d ∈ (before.flatMap registers).reverse ↔ d ∈ t.initData.toList.flatMap registers :=
    fun d => List.mem_reverse.trans hperm.mem_iff
  have hbound := pciProbe_bound space (List.nodup_reverse.mpr (hperm.nodup_iff.mpr hset))
  have hzero : (before.flatMap registers).reverse ++ State.zero.drivers =
      (before.flatMap registers).reverse := List.append_nil _
  rw [hsplit.eq, List.foldl_append, List.foldl_cons, foldl_call hsplit.notBefore,
    foldl_call_none hsplit.notAfter hsplit.none, call, if_pos rfl, hzero]
  exact ⟨hbound.listed, hbound.described, fun d hd => hbound.calls d ((hmem d).mpr hd),
    fun e he => ⟨(hmem e.1).mp (hbound.known e he).1, (hbound.known e he).2⟩⟩

/-! ### One driver -/

/-- Device `1528` of vendor `8086` is the only one there is. -/
def onlyIxgbe : Space := fun bus dev func reg =>
  if bus = 0 ∧ dev = 0 ∧ func = 0 ∧ reg = 0 then 0x15288086 else 0xffffffff

def ixgbeDriver : PciDriver := ⟨0x1000, [0x80861528, PCIID_END], by decide⟩

def pciFile : CString := cstring ['p', 'c', 'i', '.', 'c'] (by decide)
def ixgbeFile : CString := cstring ['i', 'x', 'g', 'b', 'e', '.', 'c'] (by decide)

def pciInit : InitData := ⟨pciFile, driver99, 1⟩

/-- The record of a function that registers the driver, with the id `id`. -/
def ixgbeInit (id : CString) : InitData := ⟨ixgbeFile, id, 2⟩

def registersIxgbe (r : InitData) : List PciDriver := if r.func = 2 then [ixgbeDriver] else []

def twoRecords (id : CString) : Tables 2 0 := ⟨#v[pciInit, ixgbeInit id], #v[]⟩

def driver1 : CString := cstring ['d', 'r', 'i', 'v', 'e', 'r', '1'] (by decide)
def ap0 : CString := cstring ['a', 'p', '0'] (by decide)

theorem drivers_bound_ixgbe : Bound onlyIxgbe [ixgbeDriver]
    ((driverStage (twoRecords driver1)).foldl (call onlyIxgbe pciInit registersIxgbe) State.zero) := by
  have hdrivers : (twoRecords driver1).initData.toList.flatMap registersIxgbe = [ixgbeDriver] := by decide
  rw [← hdrivers]
  exact drivers_bound onlyIxgbe rfl (by decide) (by decide) (by decide)

/-- With the id `ap0` the record sorts first, but its function is called when the probe is over. -/
theorem registered_late : Before (ixgbeInit ap0) pciInit ∧ ¬ Bound onlyIxgbe [ixgbeDriver]
    ((driverStage (twoRecords ap0)).foldl (call onlyIxgbe pciInit registersIxgbe) State.zero) := by
  refine ⟨by decide, fun hbound => ?_⟩
  have hstage : driverStage (twoRecords ap0) = [pciInit] := by decide
  have hdue := hbound.calls ixgbeDriver (List.mem_singleton.mpr rfl) ⟨0, 0, 0⟩
  rw [if_pos (by decide), hstage, List.foldl_cons, List.foldl_nil, call, if_pos rfl] at hdue
  -- nothing is registered when the bus is probed
  have hnone := (pciProbe_bound onlyIxgbe List.nodup_nil).known
  have hempty : (pciProbe onlyIxgbe State.zero).calls.count (ixgbeDriver, ⟨0, 0, 0⟩) = 0 := by
    refine List.count_eq_zero.mpr fun hin => ?_
    obtain ⟨e, he, _⟩ := List.mem_map.mp hin
    exact List.not_mem_nil (hnone e he).1
  omega

end Kvi.Drivers
