import Mathlib.Tactic
import Mathlib.Data.Nat.Digits.Defs
import Mathlib.Data.Nat.Digits.Lemmas

/-! Numbers written in a base.

A numeral is a list of digits, the most significant one first. Every number has
exactly one without leading zeros (`IsNumeral.eq`): `numeral`, and it is what
dividing by the powers of the base from the top down gives (`isNumeral_digitsFrom`). -/
namespace Kvi

/-- The number that digits denote. -/
def numeralValue (b : Nat) (ds : List Nat) : Nat := ds.foldl (fun n d => n * b + d) 0

/-- `ds` is `n` in base `b`, without leading zeros; `0` is a single zero. -/
structure IsNumeral (b n : Nat) (ds : List Nat) : Prop where
  ne_nil : ds ≠ []
  lt : ∀ d ∈ ds, d < b
  lead : ds.head? = some 0 → ds = [0]
  value : numeralValue b ds = n

def numeral (b n : Nat) : List Nat := if n = 0 then [0] else (Nat.digits b n).reverse

/-- The `k + 1` lowest digits. -/
def digitsFrom (b : Nat) : Nat → Nat → List Nat
  | 0, n => [n]
  | k + 1, n => n / b ^ (k + 1) :: digitsFrom b k (n % b ^ (k + 1))

variable {b n k : Nat} {ds : List Nat}

theorem numeralValue_eq : numeralValue b ds = Nat.ofDigits b ds.reverse := by
  rw [numeralValue, Nat.ofDigits_eq_foldr, List.foldr_reverse]
  refine congrArg (fun f => List.foldl f 0 ds) ?_
  funext n d
  rw [Nat.cast_id, Nat.mul_comm, Nat.add_comm]

theorem numeralValue_singleton (d : Nat) : numeralValue b [d] = d := by
  simp [numeralValue]

theorem numeralValue_zeros (k : Nat) : numeralValue b (List.replicate k 0 ++ ds) = numeralValue b ds := by
  induction k with
  | zero => rfl
  | succ k ih =>
    rw [← ih, List.replicate_succ, List.cons_append, numeralValue, List.foldl_cons, Nat.zero_mul]
    rfl

theorem length_digitsFrom : (digitsFrom b k n).length = k + 1 := by
  induction k generalizing n with
  | zero => rfl
  | succ k ih => rw [digitsFrom, List.length_cons, ih]

theorem head_digitsFrom : (digitsFrom b k n).head? = some (n / b ^ k) := by
  cases k with
  | zero => simp [digitsFrom]
  | succ k => rfl

theorem foldl_digitsFrom (a : Nat) :
    (digitsFrom b k n).foldl (fun n d => n * b + d) a = a * b ^ (k + 1) + n := by
  induction k generalizing n a with
  | zero => simp [digitsFrom]
  | succ k ih =>
    rw [digitsFrom, List.foldl_cons, ih, Nat.add_mul, Nat.add_assoc, Nat.mul_comm (n / _),
      Nat.div_add_mod, Nat.mul_assoc, ← Nat.pow_succ']

theorem digitsFrom_lt (hb : 0 < b) (hn : n < b ^ (k + 1)) : ∀ d ∈ digitsFrom b k n, d < b := by
  induction k generalizing n with
  | zero =>
    intro d hd
    rw [List.mem_singleton.mp hd]
    simpa using hn
  | succ k ih =>
    intro d hd
    cases hd with
    | head =>
      refine Nat.div_lt_of_lt_mul ?_
      rwa [← Nat.pow_succ]
    | tail _ hd => exact ih (Nat.mod_lt n (Nat.pow_pos hb)) d hd

/-- From the highest power that is not above `n` on, the digits are those of `n`. -/
theorem isNumeral_digitsFrom (hb : 0 < b) (hlo : b ^ k ≤ n) (hn : n < b ^ (k + 1)) :
    IsNumeral b n (digitsFrom b k n) := by
  refine ⟨?_, digitsFrom_lt hb hn, ?_, ?_⟩
  · refine List.ne_nil_of_length_pos ?_
    rw [length_digitsFrom]
    exact Nat.succ_pos k
  · intro hzero
    rw [head_digitsFrom] at hzero
    have hpos : 0 < n / b ^ k := Nat.div_pos hlo (Nat.pow_pos hb)
    rw [Option.some.inj hzero] at hpos
    exact absurd hpos (Nat.lt_irrefl 0)
  · rw [numeralValue, foldl_digitsFrom, Nat.zero_mul, Nat.zero_add]

theorem isNumeral_zero (hb : 0 < b) : IsNumeral b 0 [0] := by
  refine ⟨List.cons_ne_nil _ _, ?_, fun _ => rfl, numeralValue_singleton 0⟩
  intro d hd
  rwa [List.mem_singleton.mp hd]

theorem IsNumeral.eq (hb : 1 < b) (h : IsNumeral b n ds) : ds = numeral b n := by
  obtain ⟨d, ds, rfl⟩ := List.exists_cons_of_ne_nil h.ne_nil
  by_cases hd : d = 0
  · subst hd
    have hds : (0 : Nat) :: ds = [0] := h.lead rfl
    have hn : n = 0 := by
      rw [← h.value, hds, numeralValue_singleton]
    rw [numeral, if_pos hn, hds]
  · have hdigits : Nat.digits b n = (d :: ds).reverse := by
      rw [← h.value, numeralValue_eq]
      refine Nat.digits_ofDigits b hb _ ?_ ?_
      · intro l hl
        exact h.lt l (List.mem_reverse.mp hl)
      · intro hne
        rw [List.getLast_reverse]
        exact hd
    have hn : n ≠ 0 := by
      intro hzero
      rw [hzero, Nat.digits_zero] at hdigits
      exact List.cons_ne_nil d ds (List.reverse_eq_nil_iff.mp hdigits.symm)
    rw [numeral, if_neg hn, hdigits, List.reverse_reverse]

theorem isNumeral_numeral (hb : 1 < b) : IsNumeral b n (numeral b n) := by
  rw [numeral]
  by_cases hn : n = 0
  · rw [if_pos hn, hn]
    exact isNumeral_zero (by omega)
  · rw [if_neg hn]
    have hne : Nat.digits b n ≠ [] := Nat.digits_ne_nil_iff_ne_zero.mpr hn
    refine ⟨mt List.reverse_eq_nil_iff.mp hne, ?_, ?_, ?_⟩
    · intro d hd
      exact Nat.digits_lt_base hb (List.mem_reverse.mp hd)
    · intro hzero
      rw [List.head?_reverse, List.getLast?_eq_getLast_of_ne_nil hne] at hzero
      exact absurd (Option.some.inj hzero) (Nat.getLast_digit_ne_zero b hn)
    · rw [numeralValue_eq, List.reverse_reverse, Nat.ofDigits_digits]

end Kvi
