import Mathlib.Tactic

/-! The strings of `string.h`.

A C string is its characters, which are signed and none of which is NUL. `strcmp`
compares up to the first difference, the NUL included; so it is the lexicographic
order of the strings with their NUL (`ended`), in which a character above 0x7f
comes before the end. `memcmp` against a name of that name's length asks
whether the string begins with it. -/
namespace Kvi.Init

structure CString where
  chars : List Int8
  nonzero : 0 ∉ chars
  deriving DecidableEq

/-- `*s` as an `int`: behind the characters is the NUL. -/
def deref (s : List Int8) : Int := (s.headD 0).toInt

/-- The loop of `strcmp`. The first string decides when it ends. -/
def strcmpLoop : List Int8 → List Int8 → Int
  | [], s2 => 0 - deref s2
  | c :: s1, s2 =>
    let r := c.toInt - deref s2
    if r = 0 then strcmpLoop s1 s2.tail else r

def strcmp (s1 s2 : CString) : Int := strcmpLoop s1.chars s2.chars

/-- `memcmp (s1, s2, len)` for strings. -/
def memcmp : List Int8 → List Int8 → Nat → Int
  | _, _, 0 => 0
  | s1, s2, len + 1 =>
    let r := deref s1 - deref s2
    if r = 0 then memcmp s1.tail s2.tail len else r

def strlen (s : CString) : Nat := s.chars.length

/-- The characters and the NUL. -/
def ended (s : List Int8) : List Int := s.map Int8.toInt ++ [0]

theorem toInt_ne_zero {c : Int8} {s : List Int8} (h : 0 ∉ c :: s) : c.toInt ≠ 0 := by
  intro heq
  have hc : c = 0 := Int8.toInt_inj.mp heq
  rw [hc] at h
  exact h (List.mem_cons_self ..)

theorem deref_cons (c : Int8) (s : List Int8) : deref (c :: s) = c.toInt := rfl

theorem deref_nil : deref [] = 0 := rfl

theorem ended_cons (c : Int8) (s : List Int8) : ended (c :: s) = c.toInt :: ended s := rfl

theorem ended_nil : ended [] = [0] := rfl

/-- `strcmp` is the order of the strings with their NUL. -/
theorem strcmpLoop_spec {s t : List Int8} (hs : 0 ∉ s) (ht : 0 ∉ t) :
    (strcmpLoop s t < 0 ↔ ended s < ended t) ∧ (strcmpLoop s t = 0 ↔ ended s = ended t) := by
  induction s generalizing t with
  | nil =>
    rw [strcmpLoop]
    cases t with
    | nil => simp [deref_nil]
    | cons d t =>
      have hd := toInt_ne_zero ht
      rw [deref_cons, ended_nil, ended_cons, List.cons_lt_cons_iff, List.cons.injEq]
      constructor <;> omega
  | cons c s ih =>
    have hc := toInt_ne_zero hs
    rw [strcmpLoop]
    cases t with
    | nil =>
      have hr : ¬ c.toInt - deref [] = 0 := by
        rw [deref_nil]
        omega
      rw [if_neg hr, deref_nil, ended_nil, ended_cons, List.cons_lt_cons_iff, List.cons.injEq]
      constructor <;> omega
    | cons d t =>
      obtain ⟨ihlt, iheq⟩ := ih (List.not_mem_of_not_mem_cons hs) (List.not_mem_of_not_mem_cons ht)
      rw [ended_cons, ended_cons, List.cons_lt_cons_iff, List.cons.injEq]
      by_cases hr : c.toInt - deref (d :: t) = 0
      · rw [if_pos hr, List.tail_cons, ihlt, iheq]
        rw [deref_cons] at hr
        have heq : c.toInt = d.toInt := by omega
        simp only [heq, lt_irrefl, false_or, true_and, and_self]
      · rw [if_neg hr]
        rw [deref_cons] at hr ⊢
        constructor <;> omega

theorem strcmp_neg {s t : CString} : strcmp s t < 0 ↔ ended s.chars < ended t.chars :=
  (strcmpLoop_spec s.nonzero t.nonzero).1

theorem strcmp_zero {s t : CString} : strcmp s t = 0 ↔ ended s.chars = ended t.chars :=
  (strcmpLoop_spec s.nonzero t.nonzero).2

theorem strcmp_pos {s t : CString} : 0 < strcmp s t ↔ ended t.chars < ended s.chars := by
  rw [← not_le, ← not_le, le_iff_lt_or_eq, le_iff_lt_or_eq, strcmp_neg, strcmp_zero]

/-- A string begins with a name. -/
theorem memcmp_zero {s t : List Int8} (ht : 0 ∉ t) :
    memcmp s t t.length = 0 ↔ t <+: s := by
  induction t generalizing s with
  | nil => exact iff_of_true rfl ⟨s, rfl⟩
  | cons d t ih =>
    have hd := toInt_ne_zero ht
    rw [List.length_cons, memcmp]
    cases s with
    | nil =>
      have hr : ¬ deref [] - deref (d :: t) = 0 := by
        rw [deref_nil, deref_cons]
        omega
      rw [if_neg hr]
      exact iff_of_false hr fun h => nomatch List.prefix_nil.mp h
    | cons c s =>
      rw [List.cons_prefix_cons]
      by_cases hr : deref (c :: s) - deref (d :: t) = 0
      · rw [if_pos hr, List.tail_cons, List.tail_cons, ih (List.not_mem_of_not_mem_cons ht)]
        rw [deref_cons, deref_cons] at hr
        have heq : d = c := Int8.toInt_inj.mp (by omega)
        exact ⟨fun h => ⟨heq, h⟩, fun h => h.2⟩
      · rw [if_neg hr]
        refine iff_of_false hr fun h => hr ?_
        rw [h.1, deref_cons, deref_cons]
        exact Int.sub_self _

end Kvi.Init
