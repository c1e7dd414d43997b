import Kvi.Init.CString
import Kvi.Library.ExchangeSort

/-! The order of initialisation.

`register_init` and `register_deinit` put one record each into two tables, in an
order that is the linker's. `init_init` sorts them in place by exchanges, and
`init` walks the first table once for every stage and calls what the stage's name
is the beginning of the id of. The functions called do not write the tables; what
is kept of a call is the record it was made from. -/
namespace Kvi.Init

/-- `struct init_data`; `func` is the address of the function. -/
structure InitData where
  filename : CString
  id : CString
  func : Nat
  deriving DecidableEq

/-- The tables from `__init_begin` to `__init_end` and from `__deinit_begin` to `__deinit_end`. -/
structure Tables (n m : Nat) where
  initData : Vector InitData n
  deinitData : Vector InitData m

def initCmp (p q : InitData) : Int :=
  let diff := strcmp p.id q.id
  if 0 < diff then 1
  else if diff < 0 then 0
  else
    let diff := strcmp p.filename q.filename
    if 0 < diff then 1 else 0

def initInit {n m : Nat} (t : Tables n m) : Tables n m where
  initData := exchangeSort (fun p q => initCmp p q != 0) t.initData
  deinitData := exchangeSort (fun p q => initCmp q p != 0) t.deinitData

/-- The calls so far, and those of the records whose id begins with `id`. -/
def initScan (id : CString) (records calls : List InitData) : List InitData :=
  let len := strlen id
  records.foldl
    (fun calls p => if memcmp p.id.chars id.chars len = 0 then calls ++ [p] else calls) calls

def initDoInit {n m : Nat} (t : Tables n m) (id : CString) (calls : List InitData) :
    List InitData :=
  initScan id t.initData.toList calls

def cstring (s : List Char) (h : 0 ∉ s.map fun c => Int8.ofNat c.toNat) : CString :=
  ⟨s.map fun c => Int8.ofNat c.toNat, h⟩

def bsp : CString := cstring ['b', 's', 'p'] (by decide)
def driver : CString := cstring ['d', 'r', 'i', 'v', 'e', 'r'] (by decide)
def ap : CString := cstring ['a', 'p'] (by decide)

/-- `init_list`, with its `NULL`. -/
def initList : List (Option CString) := [some bsp, some driver, some ap, none]

/-- `while (init_list[i++])` -/
def initLoop {n m : Nat} (t : Tables n m) : List (Option CString) → List InitData → List InitData
  | some id :: rest, calls => initLoop t rest (initDoInit t id calls)
  | _, calls => calls

/-- `init` up to the call of `main`: the tables it leaves and the calls it makes. -/
def initPhase {n m : Nat} (t : Tables n m) : Tables n m × List InitData :=
  let t := initInit t
  (t, initLoop t initList [])

variable {n m : Nat} {t : Tables n m} {p q : InitData} {id : CString} {records calls : List InitData}

/-! ### The comparison -/

/-- `p` may stand before `q`. -/
def Ascending (p q : InitData) : Prop :=
  strcmp p.id q.id < 0 ∨ strcmp p.id q.id = 0 ∧ strcmp p.filename q.filename ≤ 0

/-- What records are sorted by. -/
def key (p : InitData) : List Int ×ₗ List Int := toLex (ended p.id.chars, ended p.filename.chars)

theorem ascending_iff : Ascending p q ↔ key p ≤ key q := by
  rw [Ascending, key, key, Prod.Lex.toLex_le_toLex, strcmp_neg, strcmp_zero, ← not_lt, ← not_lt,
    strcmp_pos]

/-- `init_cmp` asks whether the second record comes before the first. -/
theorem initCmp_iff : initCmp p q ≠ 0 ↔ key q < key p := by
  rw [key, key, Prod.Lex.toLex_lt_toLex, initCmp]
  dsimp only
  split
  · next h => exact iff_of_true (by decide) (.inl (strcmp_pos.mp h))
  · next h =>
    split
    · next h' =>
      have hlt := strcmp_neg.mp h'
      refine iff_of_false (fun hne => hne rfl) fun hor => ?_
      rcases hor with hgt | ⟨heq, _⟩
      · exact lt_asymm hlt hgt
      · exact ne_of_lt hlt heq.symm
    · next h' =>
      have heq : ended p.id.chars = ended q.id.chars := strcmp_zero.mp (by omega)
      rw [heq]
      split
      · next hf => exact iff_of_true (by decide) (.inr ⟨rfl, strcmp_pos.mp hf⟩)
      · next hf =>
        refine iff_of_false (fun hne => hne rfl) fun hor => ?_
        rcases hor with hlt | ⟨_, hlt⟩
        · exact lt_irrefl _ hlt
        · exact hf (strcmp_pos.mpr hlt)

/-- The table is in order afterwards, and it is the same table. -/
theorem initInit_sorted (t : Tables n m) :
    (initInit t).initData.Perm t.initData ∧
      (initInit t).initData.toList.Pairwise Ascending := by
  have hgt : ∀ p q, (initCmp p q != 0) = true ↔ key q < key p :=
    fun p q => bne_iff_ne.trans initCmp_iff
  obtain ⟨hperm, hsorted⟩ := exchangeSort_spec hgt t.initData
  exact ⟨hperm, hsorted.imp ascending_iff.mpr⟩

/-! ### The stages -/

/-- The id of a record begins with a stage's name. -/
def Starts (id : CString) (p : InitData) : Bool := decide (id.chars <+: p.id.chars)

theorem initScan_eq : initScan id records calls = calls ++ records.filter (Starts id) := by
  induction records generalizing calls with
  | nil => exact (List.append_nil _).symm
  | cons p ps ih =>
    have hstarts : memcmp p.id.chars id.chars (strlen id) = 0 ↔ Starts id p = true :=
      (memcmp_zero id.nonzero).trans decide_eq_true_iff.symm
    show initScan id ps (if memcmp p.id.chars id.chars (strlen id) = 0 then _ else _) = _
    rw [ih, List.filter_cons]
    by_cases h : memcmp p.id.chars id.chars (strlen id) = 0
    · rw [if_pos h, if_pos (hstarts.mp h), List.append_assoc, List.singleton_append]
    · rw [if_neg h, if_neg (mt hstarts.mpr h)]

/-- Two names of which neither begins the other begin no id together. -/
theorem starts_exclusive (id id' : CString) (h : ¬ id.chars <+: id'.chars)
    (h' : ¬ id'.chars <+: id.chars) (p : InitData) :
    ¬ (Starts id p = true ∧ Starts id' p = true) := by
  intro ⟨h₁, h₂⟩
  rcases List.prefix_or_prefix_of_prefix (of_decide_eq_true h₁) (of_decide_eq_true h₂) with hp | hp
  · exact h hp
  · exact h' hp

/-- Filters that exclude each other pick, one after the other, what either of them picks. -/
theorem filter_append_perm {α : Type} (f g : α → Bool) (xs : List α)
    (h : ∀ x, ¬ (f x = true ∧ g x = true)) :
    (xs.filter f ++ xs.filter g).Perm (xs.filter fun x => f x || g x) := by
  have hsplit := List.filter_append_perm f (xs.filter fun x => f x || g x)
  have hf : (xs.filter fun x => f x || g x).filter f = xs.filter f := by
    rw [List.filter_filter]
    apply List.filter_congr
    intro x _
    cases f x <;> simp
  have hg : (xs.filter fun x => f x || g x).filter (fun x => !f x) = xs.filter g := by
    rw [List.filter_filter]
    apply List.filter_congr
    intro x _
    have := h x
    cases hfx : f x <;> cases hgx : g x <;> simp_all
  rwa [hf, hg] at hsplit

/-- What `init` does to the table and in which order it makes its calls. -/
structure Ordered (t t' : Tables n m) (calls : List InitData) : Prop where
  same : t'.initData.Perm t.initData
  sorted : t'.initData.toList.Pairwise Ascending
  /-- One stage after the other, each in the order of the table. -/
  staged : calls = t'.initData.toList.filter (Starts bsp) ++
    t'.initData.toList.filter (Starts driver) ++ t'.initData.toList.filter (Starts ap)
  /-- Every record of a stage is called once, and no other. -/
  once : calls.Perm
    (t.initData.toList.filter fun p => Starts bsp p || Starts driver p || Starts ap p)

theorem init_ordered (t : Tables n m) : Ordered t (initPhase t).1 (initPhase t).2 := by
  obtain ⟨hsame, hsorted⟩ := initInit_sorted t
  have hstaged : (initPhase t).2 = (initInit t).initData.toList.filter (Starts bsp) ++
      (initInit t).initData.toList.filter (Starts driver) ++
        (initInit t).initData.toList.filter (Starts ap) := by
    show initScan ap _ (initScan driver _ (initScan bsp _ [])) = _
    rw [initScan_eq, initScan_eq, initScan_eq, List.nil_append]
  refine ⟨hsame, hsorted, hstaged, ?_⟩
  rw [hstaged]
  have hbd := filter_append_perm (Starts bsp) (Starts driver) (initInit t).initData.toList
    (starts_exclusive bsp driver (by decide) (by decide))
  have hall := filter_append_perm (fun p => Starts bsp p || Starts driver p) (Starts ap)
    (initInit t).initData.toList fun p ⟨hor, hap⟩ => by
      rcases Bool.or_eq_true_iff.mp hor with h | h
      · exact starts_exclusive bsp ap (by decide) (by decide) p ⟨h, hap⟩
      · exact starts_exclusive driver ap (by decide) (by decide) p ⟨h, hap⟩
  exact ((hbd.append_right _).trans hall).trans (hsame.toList.filter _)

end Kvi.Init
