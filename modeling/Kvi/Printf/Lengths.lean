import Kvi.Printf.Layout

/-! Length modifiers.

`do_printf` takes an `int` or a `long long` from the argument list, as the modifier
says, and leaves it at that: a value for `hh` or `h` is not narrowed to a `char` or a
`short`. The text is that of the value taken (`readBack_intText`), so it denotes the
converted argument just where the argument is in range (`converts_iff`). -/
namespace Kvi.Printf

/-! ### Reading a number back -/

def digitValue (c : Int8) : Option Nat :=
  if 48 ≤ c.toInt ∧ c.toInt ≤ 57 then some (c.toInt - 48).toNat
  else if 97 ≤ c.toInt ∧ c.toInt ≤ 102 then some (c.toInt - 87).toNat
  else if 65 ≤ c.toInt ∧ c.toInt ≤ 70 then some (c.toInt - 55).toNat
  else none

/-- The digits at the start of a text, as a number. -/
def readDigits (b : Nat) : List Int8 → Nat → Nat
  | [], n => n
  | c :: text, n =>
    match digitValue c with
    | none => n
    | some x => if x < b then readDigits b text (n * b + x) else n

/-- Hexadecimal digits may have a mark before them. -/
def skipMark (b : Nat) : List Int8 → List Int8
  | c :: x :: text =>
    if b = 16 ∧ c = ch '0' ∧ (x = ch 'x' ∨ x = ch 'X') then text else c :: x :: text
  | text => text

/-- The number at the start of a text, as `strtol` reads it: blanks, a sign, a mark, digits. -/
def readBack (b : Nat) (text : List Int8) : Int :=
  match text.dropWhile (· = ch ' ') with
  | [] => 0
  | c :: text =>
    if c = ch '-' then -(readDigits b (skipMark b text) 0 : Int)
    else if c = ch '+' then readDigits b (skipMark b text) 0
    else readDigits b (skipMark b (c :: text)) 0

/-! ### The modifiers -/

inductive LengthModifier where
  | none | hh | h | l | ll | j | z | t
  deriving DecidableEq, Repr

namespace LengthModifier

def spelled : LengthModifier → List Int8
  | none => []
  | hh => [ch 'h', ch 'h']
  | h => [ch 'h']
  | l => [ch 'l']
  | ll => [ch 'l', ch 'l']
  | j => [ch 'j']
  | z => [ch 'z']
  | t => [ch 't']

/-- The width of the type a modifier names. -/
def bits : LengthModifier → Nat
  | hh => 8
  | h => 16
  | none => 32
  | l | ll | j | z | t => 64

/-- The argument in a word, converted to the type. -/
def converted (m : LengthModifier) (signed : Bool) (word : Nat) : Int :=
  if signed ∧ 2 ^ (m.bits - 1) ≤ word % 2 ^ m.bits then (word % 2 ^ m.bits : Nat) - 2 ^ m.bits
  else (word % 2 ^ m.bits : Nat)

/-- The argument of a type narrower than `int` is in the range of the type. -/
def InRange (m : LengthModifier) (signed : Bool) (word : Nat) : Prop :=
  m.bits < 32 →
    if signed then -2 ^ (m.bits - 1) ≤ s32 word ∧ s32 word < 2 ^ (m.bits - 1) else u32 word < 2 ^ m.bits

/-- The flags `parse_format` sets for a modifier. -/
def flags : LengthModifier → Nat
  | none => 0
  | hh => LENGTH_SHORT ||| LENGTH_CHAR
  | h => LENGTH_SHORT
  | l => LENGTH_LONG
  | ll => LENGTH_LONG ||| LENGTH_LONGLONG
  | j => LENGTH_INTMAX
  | z => LENGTH_SIZE
  | t => LENGTH_PTRDIFF

end LengthModifier

variable {b k n f val word : Nat} {m : LengthModifier} {c : IntConversion} {d : Directive} {r : Radix}
  {s : IntSpec} {ds : List Nat} {text rest : List Int8} {args : Args}

/-- The conversions' digits are digits. -/
theorem digitValue_radix {x : Nat} (hx : x < c.radix.base) :
    digitValue (digitChar c.radix.str x) = some x := by
  have hall : ∀ c : IntConversion, ∀ x < c.radix.base, digitValue (digitChar c.radix.str x) = some x := by
    intro c
    cases c <;> decide
  exact hall c x hx

theorem readDigits_append (hds : ∀ x ∈ ds, x < c.radix.base) :
    readDigits c.radix.base (ds.map (digitChar c.radix.str) ++ rest) n =
      readDigits c.radix.base rest (ds.foldl (fun n x => n * c.radix.base + x) n) := by
  induction ds generalizing n with
  | nil => rfl
  | cons x ds ih =>
    have hx := hds x (List.mem_cons_self ..)
    rw [List.map_cons, List.cons_append, readDigits, digitValue_radix hx]
    dsimp only
    rw [if_pos hx, List.foldl_cons]
    exact ih fun y hy => hds y (List.mem_cons_of_mem _ hy)

theorem readDigits_blanks : readDigits b (List.replicate k (ch ' ')) n = n := by
  cases k with
  | zero => rfl
  | succ k => rfl

/-- Where there is no `x` there is no mark. -/
theorem skipMark_none (h : ∀ x ∈ text, x ≠ ch 'x' ∧ x ≠ ch 'X') : skipMark b text = text := by
  match text, h with
  | [], _ => rfl
  | [_], _ => rfl
  | _ :: x :: _, h =>
    have hx := h x (List.mem_cons_of_mem _ (List.mem_cons_self ..))
    exact if_neg fun hc => hc.2.2.elim hx.1 hx.2

/-! ### The text of a value reads back -/

theorem dropWhile_blanks :
    (List.replicate k (ch ' ') ++ text).dropWhile (· = ch ' ') = text.dropWhile (· = ch ' ') := by
  induction k with
  | zero => rfl
  | succ k ih =>
    rw [List.replicate_succ, List.cons_append, List.dropWhile_cons_of_pos (by decide)]
    exact ih

theorem readBack_blanks : readBack b (List.replicate k (ch ' ') ++ text) = readBack b text := by
  rw [readBack, dropWhile_blanks, ← readBack]

theorem readBack_minus : readBack b (ch '-' :: text) = -(readDigits b (skipMark b text) 0 : Int) := by
  rw [readBack, List.dropWhile_cons_of_neg (by decide)]
  exact if_pos rfl

theorem readBack_plus : readBack b (ch '+' :: text) = readDigits b (skipMark b text) 0 := by
  rw [readBack, List.dropWhile_cons_of_neg (by decide)]
  exact (if_neg (by decide)).trans (if_pos rfl)

theorem readBack_mark {x : Int8} (hx : x = ch 'x' ∨ x = ch 'X') :
    readBack 16 (ch '0' :: x :: text) = readDigits 16 text 0 := by
  rw [readBack, List.dropWhile_cons_of_neg (by decide)]
  dsimp only
  rw [if_neg (by decide), if_neg (by decide), skipMark, if_pos ⟨rfl, rfl, hx⟩]

section
variable (hds : ∀ x ∈ ds, x < c.radix.base)
include hds

/-- A digit is no blank, no sign and no `x`. -/
theorem digits_only {x : Int8} (hx : digitValue x = none) : x ∉ ds.map (digitChar c.radix.str) := by
  intro hm
  obtain ⟨y, hy, heq⟩ := List.mem_map.mp hm
  rw [← heq, digitValue_radix (hds y hy)] at hx
  cases hx

theorem no_mark : ∀ x ∈ ds.map (digitChar c.radix.str) ++ List.replicate k (ch ' '),
    x ≠ ch 'x' ∧ x ≠ ch 'X' := by
  intro x hx
  rcases List.mem_append.mp hx with hx | hx
  · constructor
    · intro heq
      exact digits_only hds (x := ch 'x') (by decide) (heq ▸ hx)
    · intro heq
      exact digits_only hds (x := ch 'X') (by decide) (heq ▸ hx)
  · rw [List.eq_of_mem_replicate hx]
    decide

theorem readDigits_value : readDigits c.radix.base
    (ds.map (digitChar c.radix.str) ++ List.replicate k (ch ' ')) 0 = numeralValue c.radix.base ds := by
  rw [readDigits_append hds, readDigits_blanks]
  rfl

/-- Behind blanks, and behind the sign or the mark, the digits are read to the blanks that follow. -/
theorem readBack_lead {i j : Nat} (hs : s.conversion = c) (hne : ds ≠ [])
    (hneg : s.negative = true → c.signed = true) :
    readBack c.radix.base (List.replicate i (ch ' ') ++ (s.lead val ++
        (ds.map (digitChar c.radix.str) ++ List.replicate j (ch ' ')))) =
      if s.negative then -(numeralValue c.radix.base ds : Int) else numeralValue c.radix.base ds := by
  have hread := readDigits_value hds (k := j)
  have hskip := skipMark_none (b := c.radix.base) (no_mark hds (k := j))
  have hhead : ∃ x t, ds.map (digitChar c.radix.str) ++ List.replicate j (ch ' ') = x :: t ∧
      x ≠ ch ' ' ∧ x ≠ ch '-' ∧ x ≠ ch '+' := by
    obtain ⟨y, ds', rfl⟩ := List.exists_cons_of_ne_nil hne
    have hno : ∀ z, digitValue z = none → digitChar c.radix.str y ≠ z := by
      intro z hz heq
      exact digits_only hds hz (heq ▸ List.mem_cons_self ..)
    exact ⟨_, _, rfl, hno _ (by decide), hno _ (by decide), hno _ (by decide)⟩
  generalize ds.map (digitChar c.radix.str) ++ List.replicate j (ch ' ') = core at hread hskip hhead ⊢
  have hbare : readBack c.radix.base core = numeralValue c.radix.base ds := by
    obtain ⟨x, t, rfl, hblank, hminus, hplus⟩ := hhead
    rw [readBack, List.dropWhile_cons_of_neg (by simp [hblank])]
    dsimp only
    rw [if_neg hminus, if_neg hplus, hskip, hread]
  rw [readBack_blanks, IntSpec.lead, hs]
  by_cases hsigned : c.signed = true
  · rw [if_pos hsigned]
    by_cases hn : s.negative = true
    · rw [if_pos hn, if_pos hn, List.singleton_append, readBack_minus, hskip, hread]
    · rw [if_neg hn, if_neg hn]
      by_cases hplus : s.plus = true
      · rw [if_pos hplus, List.singleton_append, readBack_plus, hskip, hread]
      · rw [if_neg hplus]
        by_cases hblank : s.blank = true
        · rw [if_pos hblank]
          exact (readBack_blanks (k := 1)).trans hbare
        · rw [if_neg hblank]
          exact hbare
  · rw [if_neg hsigned, if_neg (mt hneg hsigned)]
    by_cases ha : s.alternate = true ∧ val ≠ 0
    · rw [if_pos ha]
      cases c with
      | x => exact (readBack_mark (Or.inl rfl)).trans (congrArg _ hread)
      | X => exact (readBack_mark (Or.inr rfl)).trans (congrArg _ hread)
      | d => exact hbare
      | i => exact hbare
      | o => exact hbare
      | u => exact hbare
    · rw [if_neg ha]
      exact hbare

end

/-- The body is the numeral behind zeros. -/
theorem body_digits (hdigits : ¬ (s.precision = some 0 ∧ val = 0)) : ∃ k, s.body val =
    (List.replicate k 0 ++ numeral s.conversion.radix.base val).map (digitChar s.conversion.radix.str) := by
  have hmap : ∀ k, (List.replicate k 0 ++ numeral s.conversion.radix.base val).map
      (digitChar s.conversion.radix.str) =
        List.replicate k (ch '0') ++ s.conversion.radix.digits val := by
    intro k
    rw [List.map_append, List.map_replicate, s.conversion.radix.zero]
    rfl
  rw [body_eq hdigits]
  split
  · exact ⟨s.zeros val + 1, (hmap (s.zeros val + 1)).symm⟩
  · exact ⟨s.zeros val, (hmap _).symm⟩

/-- What C prescribes for a value reads back as the value. -/
theorem readBack_prescribed (hneg : s.negative = true → s.conversion.signed = true)
    (hdigits : ¬ (s.precision = some 0 ∧ val = 0)) :
    readBack s.conversion.radix.base (s.prescribed val) = if s.negative then -(val : Int) else val := by
  obtain ⟨k, hbody⟩ := body_digits hdigits
  have hb := s.conversion.radix.one_lt
  have hnumeral := isNumeral_numeral (n := val) hb
  have hds : ∀ j, ∀ x ∈ List.replicate j 0 ++ numeral s.conversion.radix.base val,
      x < s.conversion.radix.base := by
    intro j x hx
    rcases List.mem_append.mp hx with hx | hx
    · rw [List.eq_of_mem_replicate hx]
      omega
    · exact hnumeral.lt x hx
  have hne : ∀ j, List.replicate j 0 ++ numeral s.conversion.radix.base val ≠ [] := by
    intro j hnil
    exact hnumeral.ne_nil (List.append_eq_nil_iff.mp hnil).2
  have hread : ∀ i j l, readBack s.conversion.radix.base (List.replicate i (ch ' ') ++ (s.lead val ++
      ((List.replicate j 0 ++ numeral s.conversion.radix.base val).map (digitChar s.conversion.radix.str) ++
        List.replicate l (ch ' ')))) = if s.negative then -(val : Int) else val := by
    intro i j l
    rw [readBack_lead (hds j) rfl (hne j) hneg, numeralValue_zeros, hnumeral.value]
  rw [IntSpec.prescribed]
  by_cases hz : s.zero = true ∧ ¬ s.left = true ∧ s.precision = none
  · have hfill : List.replicate (s.fill val) (ch '0') ++ s.body val =
        (List.replicate (s.fill val + k) 0 ++ numeral s.conversion.radix.base val).map
          (digitChar s.conversion.radix.str) := by
      rw [hbody, List.replicate_add, List.append_assoc, List.map_append, List.map_append, List.map_append,
        List.map_replicate, List.map_replicate, s.conversion.radix.zero]
    have hsame := hread 0 (s.fill val + k) 0
    rw [List.replicate_zero, List.nil_append, List.append_nil] at hsame
    rw [if_pos hz, hfill]
    exact hsame
  · rw [if_neg hz, padded, hbody]
    split
    · have hsame := hread 0 k (s.width - (s.lead val ++ s.body val).length)
      rw [List.replicate_zero, List.nil_append, ← List.append_assoc, hbody] at hsame
      exact hsame
    · have hsame := hread (s.width - (s.lead val ++ s.body val).length) k 0
      rw [List.replicate_zero, List.append_nil, hbody] at hsame
      exact hsame

/-- What `do_conversion_int` writes reads back as the value, with its sign. -/
theorem readBack_intText (hf : Asks f s) (hval : val < 2 ^ 64) (hw : s.width < 2 ^ 31)
    (hlen : (s.lead val ++ s.body val).length < 2 ^ 31)
    (hneg : s.negative = true → s.conversion.signed = true) :
    ∃ text : List Int8, intText val f s.width (s.precision.getD 0 : Nat) = some (text.map Int8.toInt) ∧
      readBack s.conversion.radix.base text = if s.negative then -(val : Int) else val := by
  by_cases hdigits : s.precision = some 0 ∧ val = 0
  · obtain ⟨hp, rfl⟩ := hdigits
    have hzero : (if s.negative = true then -((0 : Nat) : Int) else ((0 : Nat) : Int)) = 0 := by
      split <;> rfl
    refine ⟨[], ?_, hzero.symm⟩
    rw [intText, hf.character, if_neg Bool.false_ne_true, hf.precision, hp]
    rfl
  · exact ⟨s.prescribed val, intText_prescribed hf hdigits hw hlen hval, readBack_prescribed hneg hdigits⟩

/-! ### The value that is taken -/

theorem addLength_h : addLength n (ch 'h') =
    if has n LENGTH_SHORT then n ||| LENGTH_CHAR else n ||| LENGTH_SHORT := rfl

theorem addLength_l : addLength n (ch 'l') =
    if has n LENGTH_LONG then n ||| LENGTH_LONGLONG else n ||| LENGTH_LONG := rfl

theorem has_given {i : Nat} (hi : 7 ≤ i) : has d.given (2 ^ i) = false :=
  has_below (Nat.lt_of_lt_of_le d.given_low (Nat.pow_le_pow_right (by decide) hi))

section
variable (hm : d.length = m.spelled)
include hm

theorem foldl_addLength_flags : d.length.foldl addLength d.given = d.given ||| m.flags := by
  have hshort : has d.given LENGTH_SHORT = false := has_given (i := 7) le_rfl
  have hlong : has d.given LENGTH_LONG = false := has_given (i := 9) (by decide)
  have hself : has LENGTH_SHORT LENGTH_SHORT = true ∧ has LENGTH_LONG LENGTH_LONG = true := by decide
  rw [hm]
  cases m with
  | none => exact (Nat.or_zero _).symm
  | hh =>
    simp [LengthModifier.spelled, LengthModifier.flags, addLength_h, has_or, hshort, hself, Nat.or_assoc]
  | ll =>
    simp [LengthModifier.spelled, LengthModifier.flags, addLength_l, has_or, hlong, hself, Nat.or_assoc]
  | h => simp [LengthModifier.spelled, LengthModifier.flags, addLength_h, hshort]
  | l => simp [LengthModifier.spelled, LengthModifier.flags, addLength_l, hlong]
  | j => rfl
  | z => rfl
  | t => rfl

/-- The length bits `do_printf` sees are those of the modifier. -/
theorem has_f_length {i : Nat} (hi : 7 ≤ i) (hi' : i < 14) :
    has d.f (2 ^ i) = has (lengthFlags m.flags) (2 ^ i) := by
  have hbits : ∀ j, 7 ≤ j → j < 14 → has d.bits (2 ^ j) = has m.flags (2 ^ j) := by
    intro j hj hj'
    have hconversion : has (parseConversion d.conversion 0) (2 ^ j) = false :=
      has_parseConversion_mid (by omega) hj'
    rw [Directive.bits, parseConversion_or, has_or, hconversion, Bool.or_false, foldl_addLength_flags hm,
      has_or, has_given hj, Bool.false_or]
  have hmax : has d.bits LENGTH_INTMAX = has m.flags LENGTH_INTMAX := hbits 11 (by decide) (by decide)
  have hsize : has d.bits LENGTH_SIZE = has m.flags LENGTH_SIZE := hbits 12 (by decide) (by decide)
  have hdiff : has d.bits LENGTH_PTRDIFF = has m.flags LENGTH_PTRDIFF := hbits 13 (by decide) (by decide)
  rw [Directive.f, lengthFlags, lengthFlags, hmax, hsize, hdiff]
  split_ifs
  · rw [has_or, has_or, hbits i hi hi']
  · rw [has_or, has_or, hbits i hi hi']
  · rw [has_or, has_or, hbits i hi hi']
  · exact hbits i hi hi'

/-- The narrow modifiers take an `int`, and so does none; the others take 64 bits. -/
theorem args_taken (word : Nat) : intArg d.f word = (if m.bits ≤ 32 then s32 word else s64 word) ∧
    uintArg d.f word = if m.bits ≤ 32 then u32 word else u64 word := by
  have hshort : has d.f LENGTH_SHORT = _ := has_f_length hm (i := 7) le_rfl (by decide)
  have hchar : has d.f LENGTH_CHAR = _ := has_f_length hm (i := 8) (by decide) (by decide)
  have hlong : has d.f LENGTH_LONG = _ := has_f_length hm (i := 9) (by decide) (by decide)
  have hlonglong : has d.f LENGTH_LONGLONG = _ := has_f_length hm (i := 10) (by decide) (by decide)
  rw [intArg, uintArg, hshort, hchar, hlong, hlonglong]
  cases m <;> exact ⟨rfl, rfl⟩

end

/-- The value that is rendered. -/
def LengthModifier.taken (m : LengthModifier) (signed : Bool) (word : Nat) : Int :=
  if signed then if m.bits ≤ 32 then s32 word else s64 word
  else if m.bits ≤ 32 then u32 word else u64 word

/-- It is the converted argument where narrowing changes nothing. -/
theorem taken_iff (m : LengthModifier) (signed : Bool) (word : Nat) :
    m.taken signed word = m.converted signed word ↔ m.InRange signed word := by
  unfold LengthModifier.taken LengthModifier.converted LengthModifier.InRange s32 s64 u32 u64
  cases signed <;> cases m <;> simp only [LengthModifier.bits, if_true, true_and, Bool.false_eq_true,
    if_false, false_and] <;> omega

/-- A signed conversion gets the magnitude, and the sign as a flag. -/
theorem magnitude_eq (hc : c.signed = true) : magnitude f word =
    ((intArg f word).natAbs, f ||| IntSpec.signFlag c (decide (intArg f word < 0))) := by
  have hrange : -2 ^ 63 ≤ intArg f word ∧ intArg f word < 2 ^ 63 := by
    unfold intArg s32 s64 u32 u64
    split_ifs <;> constructor <;> omega
  rw [magnitude, IntSpec.signFlag, if_pos hc]
  by_cases hneg : intArg f word < 0
  · rw [if_pos hneg, decide_eq_true hneg, if_pos rfl, ofInt64_of_nonneg (by omega) (by omega)]
    congr 1
    omega
  · rw [if_neg hneg, decide_eq_false hneg, if_neg Bool.false_ne_true, ofInt64_of_nonneg (by omega) (by omega)]
    congr 1
    omega

theorem emits_int (hc : d.conversion = c.char) (hm : d.length = m.spelled) :
    d.emits args word = intText (m.taken c.signed word).natAbs
      (d.f ||| IntSpec.signFlag c (decide (m.taken c.signed word < 0))) d.widthValue d.precisionValue := by
  obtain ⟨hsigned, hunsigned⟩ := args_taken hm word
  by_cases hs : c.signed = true
  · have hmem : d.conversion ∈ Directive.signed := by
      rw [hc]
      cases c <;> first | decide | cases hs
    have htaken : m.taken c.signed word = intArg d.f word := by
      rw [LengthModifier.taken, if_pos hs, hsigned]
    rw [Directive.emits, if_pos hmem, magnitude_eq hs, htaken]
  · have hmem : d.conversion ∉ Directive.signed ∧ d.conversion ∈ Directive.unsigned := by
      rw [hc]
      cases c <;> first | decide | exact absurd rfl hs
    have htaken : m.taken c.signed word = uintArg d.f word := by
      rw [LengthModifier.taken, if_neg hs, hunsigned]
      split <;> rfl
    have hflag : IntSpec.signFlag c (decide ((uintArg d.f word : Int) < 0)) = 0 := if_neg hs
    rw [Directive.emits, if_neg hmem.1, if_pos hmem.2, htaken, hflag, Nat.or_zero, Int.natAbs_natCast]

theorem taken_lt : (m.taken c.signed word).natAbs < 2 ^ 64 := by
  unfold LengthModifier.taken s32 s64 u32 u64
  split_ifs <;> omega

/-- Lead and body are not much longer than the precision. -/
theorem lead_body_length (hval : val < 2 ^ 64) :
    (s.lead val ++ s.body val).length ≤ max 22 (s.precision.getD 0) + 3 := by
  have hlead : (s.lead val).length ≤ 2 := by
    unfold IntSpec.lead
    split_ifs <;> decide
  have hdigits : (s.conversion.radix.digits val).length ≤ 22 := Radix.length_le hval
  have hbody : (s.body val).length ≤ max 22 (s.precision.getD 0) + 1 := by
    unfold IntSpec.body
    dsimp only
    split_ifs <;> simp only [List.length_cons, List.length_append, List.length_replicate, List.length_nil] <;>
      omega
  rw [List.length_append]
  omega

/-- The text of an integer conversion denotes the argument, converted to the type that the modifier
names, exactly if a `char` or a `short` was in range before it was promoted. -/
theorem converts_iff (args : Args) (word : Nat) (hc : d.conversion = c.char)
    (hm : d.length = m.spelled) (hw : d.widthValue < 2 ^ 31) (hp : d.precisionValue + 3 < 2 ^ 31) :
    ∃ text : List Int8, d.emits args word = some (text.map Int8.toInt) ∧
      (readBack c.radix.base text = m.converted c.signed word ↔ m.InRange c.signed word) := by
  have hprecision : (d.spec c (decide (m.taken c.signed word < 0))).precision.getD 0 = d.precisionValue := by
    show d.limit.getD 0 = d.precisionValue
    rw [Directive.limit, Directive.precisionValue, Directive.precisionDigits]
    cases d.precision <;> rfl
  have hval : (m.taken c.signed word).natAbs < 2 ^ 64 := taken_lt
  have hlen := lead_body_length (s := d.spec c (decide (m.taken c.signed word < 0))) hval
  rw [hprecision] at hlen
  have hneg : (d.spec c (decide (m.taken c.signed word < 0))).negative = true → c.signed = true := by
    intro hn
    by_contra hs
    have htaken : 0 ≤ m.taken c.signed word := by
      rw [LengthModifier.taken, if_neg hs]
      split <;> exact Int.natCast_nonneg _
    exact absurd (of_decide_eq_true hn) (Int.not_lt.mpr htaken)
  obtain ⟨text, htext, hread⟩ := readBack_intText (Directive.asks hc) hval hw
    (Nat.lt_of_le_of_lt hlen (by omega)) hneg
  rw [hprecision] at htext
  refine ⟨text, (emits_int hc hm).trans htext, ?_⟩
  have hvalue : readBack c.radix.base text = m.taken c.signed word := by
    refine hread.trans ?_
    show (if decide (m.taken c.signed word < 0) = true then _ else _) = m.taken c.signed word
    by_cases hn : m.taken c.signed word < 0
    · rw [if_pos (decide_eq_true hn)]
      omega
    · rw [if_neg fun h => hn (of_decide_eq_true h)]
      omega
  rw [hvalue]
  exact taken_iff m c.signed word

/-- `"%lld"` of the most negative value. -/
theorem converts_most_negative :
    let d : Directive := ⟨[], [], none, [ch 'l', ch 'l'], ch 'd'⟩
    d.conversion = IntConversion.d.char ∧ d.length = LengthModifier.ll.spelled ∧ d.widthValue < 2 ^ 31 ∧
      d.precisionValue + 3 < 2 ^ 31 ∧ ∃ text : List Int8,
        d.emits ⟨fun _ => 0, fun _ => []⟩ (2 ^ 63) = some (text.map Int8.toInt) ∧
        readBack 10 text = -2 ^ 63 := by
  intro d
  have hc : d.conversion = IntConversion.d.char := rfl
  have hm : d.length = LengthModifier.ll.spelled := rfl
  obtain ⟨text, htext, hread⟩ := converts_iff ⟨fun _ => 0, fun _ => []⟩ (2 ^ 63) hc hm
    (by decide) (by decide)
  exact ⟨hc, hm, by decide, by decide, text, htext, hread.mpr fun h => absurd h (by decide)⟩

/-- `"%hhu"` of 300 is `300`, and 300 converted to an `unsigned char` is 44. -/
theorem char_not_narrowed :
    let d : Directive := ⟨[], [], none, [ch 'h', ch 'h'], ch 'u'⟩
    d.length = LengthModifier.hh.spelled ∧
      d.emits ⟨fun _ => 0, fun _ => []⟩ 300 = some ((['3', '0', '0'].map ch).map Int8.toInt) ∧
      readBack 10 (['3', '0', '0'].map ch) = 300 ∧ LengthModifier.hh.converted false 300 = 44 := by
  intro d
  have htext : (d.spec .u false).prescribed 300 = ['3', '0', '0'].map ch := by decide
  have hval : 300 < 2 ^ 64 := by decide
  have hout := intText_prescribed (s := d.spec .u false) (Directive.asks rfl) (by decide) (by decide)
    (by decide) hval
  rw [htext] at hout
  exact ⟨rfl, (emits_int (c := .u) (m := .hh) rfl rfl).trans hout, by decide, by decide⟩

end Kvi.Printf
