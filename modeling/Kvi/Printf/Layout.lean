import Kvi.Printf.Texts

/-! Integer conversions.

`IntSpec.prescribed` is the text C prescribes for a magnitude: a lead (the sign, or
`0x`), a body (the digits, with zeros up to the precision), and what fills the width.
`do_conversion_int` counts the same text out in five parts, with the zeros of the
precision and those of the width in one of them and the `0` of the alternate octal
form in the lead (`leftbuf_zeros`). It gives up early on a zero of precision 0,
before width, sign and alternate form have had their say (`layout_prescribed`). -/
namespace Kvi.Printf

/-- The conversions of integers. -/
inductive IntConversion where
  | d | i | o | u | x | X
  deriving DecidableEq, Repr

namespace IntConversion

def char : IntConversion → Int8
  | d => ch 'd'
  | i => ch 'i'
  | o => ch 'o'
  | u => ch 'u'
  | x => ch 'x'
  | X => ch 'X'

def signed (c : IntConversion) : Bool := decide (c = d ∨ c = i)

def radix : IntConversion → Radix
  | d | i | u => .decimal
  | o => .octal
  | x => .lower
  | X => .upper

end IntConversion

/-- What a directive says of an integer; without a width, `width` is 0. -/
structure IntSpec where
  alternate : Bool
  zero : Bool
  left : Bool
  blank : Bool
  plus : Bool
  width : Nat
  precision : Option Nat
  conversion : IntConversion
  negative : Bool
  deriving DecidableEq, Repr

namespace IntSpec
variable (s : IntSpec) (val : Nat)

/-- The sign of a signed conversion; `0x` or `0X` of the alternate form. -/
def lead : List Int8 :=
  if s.conversion.signed then
    if s.negative then [ch '-'] else if s.plus then [ch '+'] else if s.blank then [ch ' '] else []
  else if s.alternate ∧ val ≠ 0 then
    if s.conversion = .x then [ch '0', ch 'x'] else if s.conversion = .X then [ch '0', ch 'X'] else []
  else []

/-- The digits, as many as the precision asks for; the alternate octal form starts with a zero. -/
def body : List Int8 :=
  let digits := if s.precision = some 0 ∧ val = 0 then [] else s.conversion.radix.digits val
  let digits := List.replicate (s.precision.getD 0 - digits.length) (ch '0') ++ digits
  if s.conversion = .o ∧ s.alternate ∧ digits.head? ≠ some (ch '0') then ch '0' :: digits else digits

/-- How many characters the width adds. -/
def fill : Nat := s.width - (s.lead val ++ s.body val).length

def prescribed : List Int8 :=
  if s.zero ∧ ¬ s.left ∧ s.precision = none then
    s.lead val ++ (List.replicate (s.fill val) (ch '0') ++ s.body val)
  else padded s.left s.width (s.lead val ++ s.body val)

/-- No width, no sign and no alternate octal form: nothing is to be written beside digits. -/
def Plain : Prop :=
  s.width = 0 ∧ (s.conversion.signed → ¬ s.negative ∧ ¬ s.plus ∧ ¬ s.blank) ∧
    (s.conversion = .o → ¬ s.alternate)

instance : Decidable s.Plain := inferInstanceAs (Decidable (_ ∧ _))

/-- The sign of a signed argument, as a flag. -/
def signFlag (c : IntConversion) (negative : Bool) : Nat :=
  if c.signed then if negative then FLAG_MINUS else FLAG_PLUS else 0

end IntSpec

/-- The flags `f` tell `do_conversion_int` what `s` says. -/
structure Asks (f : Nat) (s : IntSpec) : Prop where
  alternate : has f FLAG_ALTERNATE_FORM = s.alternate
  zero : has f FLAG_ZERO_PADDED = s.zero
  left : has f FLAG_LEFT_ADJUSTED = s.left
  blank : has f FLAG_POSITIVE_BLANK = s.blank
  plus : has f FLAG_POSITIVE_SIGN = s.plus
  width : has f HAS_WIDTH = false → s.width = 0
  precision : has f HAS_PRECISION = s.precision.isSome
  character : has f CONVERSION_CHARACTER = false
  decimal : has f CONVERSION_DECIMAL = decide (s.conversion.radix.base = 10)
  octal : has f CONVERSION_OCTAL = decide (s.conversion = .o)
  hexadecimal : has f CONVERSION_HEXADECIMAL = decide (s.conversion.radix.base = 16)
  capital : has f CONVERSION_CAPITAL = decide (s.conversion = .X)
  minus : has f FLAG_MINUS = (s.conversion.signed && s.negative)
  positive : has f FLAG_PLUS = (s.conversion.signed && !s.negative)

variable {s : IntSpec} {f val : Nat}

/-- Only the digits of zero start with a `'0'`. -/
theorem octal_head : (Radix.octal.digits val).head? = some (ch '0') ↔ val = 0 := by
  have hnumeral : IsNumeral 8 val (numeral 8 val) := isNumeral_numeral (by decide)
  have hdigits : Radix.octal.digits val = (numeral 8 val).map (digitChar octalDigits) := rfl
  constructor
  · intro h
    rw [hdigits, List.head?_map] at h
    obtain ⟨x, hx, hchar⟩ := Option.map_eq_some_iff.mp h
    have hlt : x < 8 := hnumeral.lt x (List.mem_of_mem_head? hx)
    have hzero : x = 0 := by
      interval_cases x <;> first | rfl | exact absurd hchar (by decide)
    rw [hzero] at hx
    have hval := hnumeral.value
    rw [hnumeral.lead hx, numeralValue_singleton] at hval
    exact hval.symm
  · intro h
    subst h
    decide

theorem digitsOf_asks (hf : Asks f s) (hval : val < 2 ^ 64) :
    digitsOf val f = some (s.conversion.radix.digits val) := by
  rw [digitsOf, hf.decimal, hf.octal, hf.hexadecimal, hf.capital]
  cases s.conversion with
  | d => exact Radix.valconv_eq (r := .decimal) hval
  | i => exact Radix.valconv_eq (r := .decimal) hval
  | u => exact Radix.valconv_eq (r := .decimal) hval
  | o => exact Radix.valconv_eq (r := .octal) hval
  | x => exact Radix.valconv_eq (r := .lower) hval
  | X => exact Radix.valconv_eq (r := .upper) hval

/-! ### The parts and the text -/

/-- How many zeros the precision adds to the digits. -/
def IntSpec.zeros (s : IntSpec) (val : Nat) : Nat :=
  s.precision.getD 0 - (s.conversion.radix.digits val).length

/-- Apart from the zero of the alternate octal form, `leftbuf` is the lead. -/
theorem leftbuf_lead (hf : Asks f s) (h : ¬ (s.conversion = .o ∧ s.alternate)) (z : Int) : leftbuf val f z = s.lead val := by
  unfold leftbuf IntSpec.lead
  rw [hf.decimal, hf.positive, hf.minus, hf.plus, hf.blank, hf.alternate, hf.octal, hf.hexadecimal, hf.capital]
  cases hc : s.conversion with
  | o =>
    have ha : ¬ s.alternate = true := fun ha => h ⟨hc, ha⟩
    simp [IntConversion.radix, IntConversion.signed, Radix.octal, ha]
  | d => cases s.negative <;> simp [IntConversion.radix, IntConversion.signed, Radix.decimal]
  | i => cases s.negative <;> simp [IntConversion.radix, IntConversion.signed, Radix.decimal]
  | u => simp [IntConversion.radix, IntConversion.signed, Radix.decimal]
  | x => simp [IntConversion.radix, IntConversion.signed, Radix.lower]
  | X => simp [IntConversion.radix, IntConversion.signed, Radix.upper]

section
variable (hdigits : ¬ (s.precision = some 0 ∧ val = 0))
include hdigits

theorem body_eq : s.body val =
    if s.conversion = .o ∧ s.alternate ∧
        (List.replicate (s.zeros val) (ch '0') ++ s.conversion.radix.digits val).head? ≠ some (ch '0') then
      ch '0' :: (List.replicate (s.zeros val) (ch '0') ++ s.conversion.radix.digits val)
    else List.replicate (s.zeros val) (ch '0') ++ s.conversion.radix.digits val := by
  unfold IntSpec.body IntSpec.zeros
  rw [if_neg hdigits]

/-- An alternate octal body gets its zero where neither precision nor digits bring one. -/
theorem body_octal (ho : s.conversion = .o) (ha : s.alternate = true) : s.body val =
    if s.zeros val = 0 ∧ val ≠ 0 then ch '0' :: Radix.octal.digits val
    else List.replicate (s.zeros val) (ch '0') ++ Radix.octal.digits val := by
  have hradix : s.conversion.radix = .octal := by rw [ho]; rfl
  rw [body_eq hdigits, hradix]
  cases hz : s.zeros val with
  | zero =>
    by_cases hval : val = 0
    · rw [List.replicate_zero, List.nil_append, octal_head.mpr hval, if_neg fun h => h.2.2 rfl,
        if_neg fun h => h.2 hval]
    · rw [List.replicate_zero, List.nil_append, if_pos ⟨ho, ha, mt octal_head.mp hval⟩,
        if_pos ⟨rfl, hval⟩]
  | succ n =>
    rw [List.replicate_succ, List.cons_append, if_neg fun h => h.2.2 rfl, if_neg fun h => by cases h.1]

theorem body_plain (h : ¬ (s.conversion = .o ∧ s.alternate)) :
    s.body val = List.replicate (s.zeros val) (ch '0') ++ s.conversion.radix.digits val := by
  rw [body_eq hdigits]
  exact if_neg fun hc => h ⟨hc.1, hc.2.1⟩

/-- The left part, the zeros and the digits spell lead and body, with the `k` zeros of the width
between the two. -/
theorem leftbuf_zeros (hf : Asks f s) (k : Nat) :
    leftbuf val f (s.zeros val) ++
        (List.replicate (s.zeros val + k) (ch '0') ++ s.conversion.radix.digits val) =
      s.lead val ++ (List.replicate k (ch '0') ++ s.body val) := by
  have hsplit : List.replicate (s.zeros val + k) (ch '0') =
      List.replicate k (ch '0') ++ List.replicate (s.zeros val) (ch '0') := by
    rw [Nat.add_comm, List.replicate_add]
  by_cases ho : s.conversion = .o ∧ s.alternate
  · obtain ⟨hc, ha⟩ := ho
    have hradix : s.conversion.radix = .octal := by rw [hc]; rfl
    have hlead : s.lead val = [] := by
      simp [IntSpec.lead, hc, IntConversion.signed]
    have hleft : leftbuf val f (s.zeros val) =
        if s.zeros val = 0 ∧ val ≠ 0 then [ch '0'] else [] := by
      unfold leftbuf
      rw [hf.decimal, hf.alternate, hf.octal, hf.hexadecimal, hc]
      by_cases hz : s.zeros val = 0 <;> by_cases hv : val = 0 <;>
        simp [IntConversion.radix, Radix.octal, ha, hz, hv]
    rw [hlead, hleft, body_octal hdigits hc ha, hradix, List.nil_append]
    by_cases hz : s.zeros val = 0 ∧ val ≠ 0
    · -- the zero stands before those of the width, which makes no difference
      rw [if_pos hz, if_pos hz, hz.1, Nat.zero_add, List.singleton_append, ← List.cons_append,
        ← List.replicate_succ, List.replicate_succ', List.append_assoc, List.singleton_append]
    · rw [if_neg hz, if_neg hz, List.nil_append, hsplit, List.append_assoc]
  · rw [leftbuf_lead hf ho, body_plain hdigits ho, hsplit, List.append_assoc]

end

section
variable (hf : Asks f s) (hdigits : ¬ (s.precision = some 0 ∧ val = 0)) (hw : s.width < 2 ^ 31)
  (hlen : (s.lead val ++ s.body val).length < 2 ^ 31)
include hf hdigits hw hlen

/-- What the code counts: the zeros of the width are added to those of the precision. -/
theorem layoutInt_eq :
    layoutInt val f s.width (s.precision.getD 0 : Nat) (s.conversion.radix.digits val).length =
      ⟨if s.left ∨ s.zero ∧ s.precision = none then 0 else (s.fill val : Nat),
        leftbuf val f (s.zeros val),
        (s.zeros val + if s.zero ∧ ¬ s.left ∧ s.precision = none then s.fill val else 0 : Nat),
        if s.left then (s.fill val : Nat) else 0⟩ := by
  have hsum := congrArg List.length (leftbuf_zeros hdigits hf 0)
  simp only [List.length_append, List.length_replicate] at hsum hlen
  have hzeros : (if has f HAS_PRECISION ∧ ((s.precision.getD 0 : Nat) : Int) >
      ((s.conversion.radix.digits val).length : Nat) then
        int32 ((s.precision.getD 0 : Nat) - ((s.conversion.radix.digits val).length : Nat)) else 0) =
      (s.zeros val : Nat) := by
    rw [hf.precision]
    by_cases hlt : (s.conversion.radix.digits val).length < s.precision.getD 0
    · have hsome : s.precision.isSome = true := by
        cases hp : s.precision with
        | none =>
          rw [hp] at hlt
          cases hlt
        | some p => rfl
      rw [if_pos ⟨hsome, by omega⟩, int32_of_range (by omega) (by unfold IntSpec.zeros at hsum; omega),
        IntSpec.zeros]
      omega
    · rw [if_neg fun h => hlt (by omega), IntSpec.zeros]
      omega
  have hused : int32 (int32 (((leftbuf val f (s.zeros val)).length : Nat) + ((s.zeros val : Nat) : Int)) +
      ((s.conversion.radix.digits val).length : Nat)) = ((s.lead val ++ s.body val).length : Nat) := by
    have hleft : int32 (((leftbuf val f (s.zeros val)).length : Nat) + ((s.zeros val : Nat) : Int)) =
        ((leftbuf val f (s.zeros val)).length : Nat) + ((s.zeros val : Nat) : Int) :=
      int32_of_range (by omega) (by omega)
    rw [hleft, int32_of_range (by omega) (by omega), List.length_append]
    omega
  have hfill : s.fill val < 2 ^ 31 := Nat.lt_of_le_of_lt (Nat.sub_le ..) hw
  have hpad : (s.zeros val : Int) + (s.fill val : Nat) < 2 ^ 31 := by
    unfold IntSpec.fill
    rw [List.length_append]
    omega
  unfold layoutInt
  dsimp only
  rw [hzeros, hused, space_eq hw hf.width, hf.left, hf.zero, hf.precision, ← IntSpec.fill]
  have hsum' : int32 ((s.zeros val : Int) + (s.fill val : Nat)) = (s.zeros val : Int) + (s.fill val : Nat) :=
    int32_of_range (by omega) hpad
  have hzero : int32 (s.zeros val : Int) = s.zeros val := int32_of_range (by omega) (by omega)
  cases s.left <;> cases s.zero <;> cases s.precision <;> simp [hsum', hzero]

/-- But for the early return the five parts are the text C prescribes. -/
theorem intText_prescribed (hval : val < 2 ^ 64) :
    intText val f s.width (s.precision.getD 0 : Nat) = some ((s.prescribed val).map Int8.toInt) := by
  have hchar : ¬ has f CONVERSION_CHARACTER = true := by
    rw [hf.character]
    exact Bool.false_ne_true
  have hearly : ¬ (has f HAS_PRECISION = true ∧ ((s.precision.getD 0 : Nat) : Int) = 0 ∧ val = 0) := by
    intro h
    rw [hf.precision] at h
    obtain ⟨p, hp⟩ := Option.isSome_iff_exists.mp h.1
    rw [hp, Option.getD_some] at h
    refine hdigits ⟨?_, h.2.2⟩
    rw [hp, Int.natCast_eq_zero.mp h.2.1]
  have hfill : s.fill val < 2 ^ 31 := Nat.lt_of_le_of_lt (Nat.sub_le ..) hw
  have hzero : times 0 (ch ' ') = [] := rfl
  rw [intText, if_neg hchar, if_neg hearly, digitsOf_asks hf hval, Option.bind_some,
    layoutInt_eq hf hdigits hw hlen]
  dsimp only
  have hzeros : s.zeros val < 2 ^ 31 := by
    have hsum := congrArg List.length (leftbuf_zeros hdigits hf 0)
    simp only [List.length_append, List.length_replicate] at hsum hlen
    omega
  have hspell := leftbuf_zeros hdigits hf 0
  rw [Nat.add_zero, List.replicate_zero, List.nil_append] at hspell
  by_cases hl : s.left = true
  · have hpad : ¬ (s.zero = true ∧ ¬ s.left = true ∧ s.precision = none) := fun h => h.2.1 hl
    rw [if_pos (Or.inl hl), if_neg hpad, if_pos hl, hzero, Nat.add_zero, times_natCast (by omega),
      times_natCast (by omega), IntSpec.prescribed, if_neg hpad, padded, if_pos hl, ← IntSpec.fill, ← hspell]
    simp only [List.map_append, List.append_assoc, List.nil_append]
  · by_cases hz : s.zero = true ∧ s.precision = none
    · have hpad : s.zero = true ∧ ¬ s.left = true ∧ s.precision = none := ⟨hz.1, hl, hz.2⟩
      rw [if_pos (Or.inr hz), if_pos hpad, if_neg hl, hzero, times_natCast (by omega),
        IntSpec.prescribed, if_pos hpad, ← leftbuf_zeros hdigits hf]
      simp only [List.map_append, List.nil_append, List.append_nil]
    · have hpad : ¬ (s.zero = true ∧ ¬ s.left = true ∧ s.precision = none) := fun h => hz ⟨h.1, h.2.2⟩
      have hleft : ¬ (s.left = true ∨ s.zero = true ∧ s.precision = none) := not_or.mpr ⟨hl, hz⟩
      rw [if_neg hleft, if_neg hpad, if_neg hl, hzero, Nat.add_zero, times_natCast (by omega),
        times_natCast (by omega), IntSpec.prescribed, if_neg hpad, padded, if_neg hl, ← IntSpec.fill, ← hspell]
      simp only [List.map_append, List.append_nil]

end

theorem doConversionInt_typed {width precision : Int} :
    doConversionInt val f width precision typed [] =
      (intText val f width precision).map fun text => ⟨int32 text.length, text.map Int8.ofInt⟩ := by
  rw [doConversionInt_eq]
  congr 1
  funext text
  exact putAll_typed

theorem prescribed_length : (s.prescribed val).length = max s.width (s.lead val ++ s.body val).length := by
  rw [IntSpec.prescribed]
  split
  · simp only [List.length_append, List.length_replicate, IntSpec.fill]
    omega
  · exact padded_length

/-- With a precision of 0, zero is blank in plain directives only. -/
theorem prescribed_zero (hp : s.precision = some 0) : s.prescribed 0 = [] ↔ s.Plain := by
  have hlead : s.lead 0 = [] ↔ (s.conversion.signed → ¬ s.negative ∧ ¬ s.plus ∧ ¬ s.blank) := by
    unfold IntSpec.lead
    cases s.conversion.signed <;> cases s.negative <;> cases s.plus <;> cases s.blank <;> simp
  have hbody : s.body 0 = [] ↔ (s.conversion = .o → ¬ s.alternate) := by
    unfold IntSpec.body
    by_cases ho : s.conversion = .o <;> cases s.alternate <;> simp [hp, ho]
  rw [← List.length_eq_zero_iff, prescribed_length, Nat.max_eq_zero_iff, List.length_eq_zero_iff,
    List.append_eq_nil_iff, hlead, hbody]
  rfl

/-- `do_conversion_int` writes what C prescribes and returns its length, but for a zero of precision 0
in a directive that is not plain. -/
theorem layout_prescribed (hf : Asks f s) (hval : val < 2 ^ 64) (hw : s.width < 2 ^ 31)
    (hlen : (s.lead val ++ s.body val).length < 2 ^ 31) :
    doConversionInt val f s.width (s.precision.getD 0 : Nat) typed [] =
        some ⟨(s.prescribed val).length, s.prescribed val⟩ ↔
      (s.precision = some 0 → val = 0 → s.Plain) := by
  by_cases hdigits : s.precision = some 0 ∧ val = 0
  · obtain ⟨hp, rfl⟩ := hdigits
    have hchar : ¬ has f CONVERSION_CHARACTER = true := by
      rw [hf.character]
      exact Bool.false_ne_true
    have hearly : has f HAS_PRECISION = true ∧ ((s.precision.getD 0 : Nat) : Int) = 0 ∧ 0 = 0 := by
      rw [hf.precision, hp]
      exact ⟨rfl, rfl, rfl⟩
    have hzero : int32 (([] : List Int).length : Nat) = 0 := by decide
    rw [doConversionInt_typed, intText, if_neg hchar, if_pos hearly, Option.map_some, hzero, List.map_nil]
    constructor
    · intro h _ _
      exact (prescribed_zero hp).mp (Out.mk.inj (Option.some.inj h)).2.symm
    · intro h
      rw [(prescribed_zero hp).mpr (h hp rfl)]
      rfl
  · have hcount : (s.prescribed val).length < 2 ^ 31 := by
      rw [prescribed_length]
      exact max_lt hw hlen
    rw [doConversionInt_typed, intText_prescribed hf hdigits hw hlen hval, Option.map_some, map_toInt_ofInt,
      List.length_map, int32_natCast.mpr hcount]
    exact ⟨fun _ hp hz => absurd ⟨hp, hz⟩ hdigits, fun _ => rfl⟩

/-! ### The directives -/

/-- What a directive says of an argument, by its sign. -/
def Directive.spec (d : Directive) (c : IntConversion) (negative : Bool) : IntSpec :=
  ⟨decide (ch '#' ∈ d.flags), decide (ch '0' ∈ d.flags), d.leftAdjusted, decide (ch ' ' ∈ d.flags),
    decide (ch '+' ∈ d.flags), d.widthValue, d.limit, c, negative⟩

/-- The flags of the sign are above all others. -/
theorem IntSpec.has_signFlag {c : IntConversion} {negative : Bool} {i : Nat} (hi : i < 25) :
    has (IntSpec.signFlag c negative) (2 ^ i) = false := by
  have hbits : ∀ b, b = 0 ∨ b = FLAG_MINUS ∨ b = FLAG_PLUS → has b (2 ^ i) = false := by
    intro b hb
    rcases hb with rfl | rfl | rfl <;> interval_cases i <;> decide
  unfold IntSpec.signFlag
  split
  · split
    · exact hbits _ (Or.inr (Or.inl rfl))
    · exact hbits _ (Or.inr (Or.inr rfl))
  · exact hbits _ (Or.inl rfl)

section
variable {d : Directive} {c : IntConversion} {negative : Bool} {i : Nat}

theorem Directive.has_flag {x : Int8} (hc : d.conversion = c.char) (hi : i < 5)
    (hx : (x, 2 ^ i) ∈ flagBits) :
    has (d.f ||| IntSpec.signFlag c negative) (2 ^ i) = decide (x ∈ d.flags) := by
  have hp : d.conversion ≠ ch 'p' := by
    rw [hc]
    cases c <;> decide
  rw [has_or, IntSpec.has_signFlag (by omega), Bool.or_false, Bool.eq_iff_iff, has_f_flag hx,
    decide_eq_true_eq]
  exact or_iff_left fun h => hp h.2

theorem Directive.has_kind (hc : d.conversion = c.char) (hlo : 14 ≤ i) (hhi : i < 25) :
    has (d.f ||| IntSpec.signFlag c negative) (2 ^ i) = has (parseConversion c.char 0) (2 ^ i) := by
  rw [has_or, IntSpec.has_signFlag hhi, Bool.or_false, has_f hlo, hc]

theorem Directive.has_sign (hc : d.conversion = c.char) (hi : 25 ≤ i) :
    has (d.f ||| IntSpec.signFlag c negative) (2 ^ i) = has (IntSpec.signFlag c negative) (2 ^ i) := by
  have hlt : parseConversion c.char 0 < 2 ^ 25 := by cases c <;> decide
  rw [has_or, has_f (by omega), hc, has_below (Nat.lt_of_lt_of_le hlt (Nat.pow_le_pow_right (by decide) hi)),
    Bool.false_or]

end

/-- The flags of a directive, with those of the sign, tell what it says. -/
theorem Directive.asks {d : Directive} {c : IntConversion} {negative : Bool} (hc : d.conversion = c.char) :
    Asks (d.f ||| IntSpec.signFlag c negative) (d.spec c negative) := by
  constructor
  · exact has_flag (i := 0) hc (by decide) (by decide)
  · exact has_flag (i := 1) hc (by decide) (by decide)
  · exact has_flag (i := 2) hc (by decide) (by decide)
  · exact has_flag (i := 3) hc (by decide) (by decide)
  · exact has_flag (i := 4) hc (by decide) (by decide)
  · intro h
    rw [has_or, Bool.or_eq_false_iff, has_f_width, decide_eq_false_iff_not, not_not] at h
    show d.widthValue = 0
    rw [widthValue, h.1]
    rfl
  · have hprecision : has (IntSpec.signFlag c negative) HAS_PRECISION = false := IntSpec.has_signFlag (i := 6) (by decide)
    rw [has_or, has_f_precision, hprecision, Bool.or_false]
    show d.precision.isSome = d.limit.isSome
    rw [limit, Option.isSome_map]
  · refine (has_kind (i := 20) hc (by decide) (by decide)).trans ?_
    cases c <;> decide
  · refine (has_kind (i := 15) hc (by decide) (by decide)).trans ?_
    show _ = decide (c.radix.base = 10)
    cases c <;> decide
  · refine (has_kind (i := 17) hc (by decide) (by decide)).trans ?_
    show _ = decide (c = .o)
    cases c <;> decide
  · refine (has_kind (i := 19) hc (by decide) (by decide)).trans ?_
    show _ = decide (c.radix.base = 16)
    cases c <;> decide
  · refine (has_kind (i := 18) hc (by decide) (by decide)).trans ?_
    show _ = decide (c = .X)
    cases c <;> decide
  · refine (has_sign (i := 25) hc (by decide)).trans ?_
    show _ = (c.signed && negative)
    cases c <;> cases negative <;> decide
  · refine (has_sign (i := 26) hc (by decide)).trans ?_
    show _ = (c.signed && !negative)
    cases c <;> cases negative <;> decide

/-- `"%#08x"` of 255 is `0x0000ff`. -/
theorem layout_prescribed_hex :
    let d : Directive := ⟨[ch '#', ch '0'], [ch '8'], none, [], ch 'x'⟩
    let s := d.spec .x false
    let f := d.f ||| IntSpec.signFlag .x false
    Asks f s ∧ 255 < 2 ^ 64 ∧ s.width < 2 ^ 31 ∧ (s.lead 255 ++ s.body 255).length < 2 ^ 31 ∧
      doConversionInt 255 f s.width (s.precision.getD 0 : Nat) typed [] =
        some ⟨8, ['0', 'x', '0', '0', '0', '0', 'f', 'f'].map ch⟩ := by
  intro d s f
  have hf : Asks f s := Directive.asks rfl
  have hw : s.width < 2 ^ 31 := by decide
  have hlen : (s.lead 255 ++ s.body 255).length < 2 ^ 31 := by decide
  have hout := (layout_prescribed hf (by decide) hw hlen).mpr fun h => by cases h
  have htext : s.prescribed 255 = ['0', 'x', '0', '0', '0', '0', 'f', 'f'].map ch := by decide
  rw [htext] at hout
  exact ⟨hf, by decide, hw, hlen, hout⟩

/-- `"%5.0d"` of 0 comes out empty. -/
theorem zero_not_padded :
    let s : IntSpec := ⟨false, false, false, false, false, 5, some 0, .d, false⟩
    let f := HAS_WIDTH ||| HAS_PRECISION ||| CONVERSION_INT ||| CONVERSION_DECIMAL ||| FLAG_PLUS
    Asks f s ∧ (s.lead 0 ++ s.body 0).length < 2 ^ 31 ∧
      doConversionInt 0 f s.width (s.precision.getD 0 : Nat) typed [] ≠
        some ⟨(s.prescribed 0).length, s.prescribed 0⟩ := by
  intro s f
  have hf : Asks f s := by constructor <;> decide
  have hempty : intText 0 f s.width (s.precision.getD 0 : Nat) = some [] := by decide
  refine ⟨hf, by decide, fun heq => ?_⟩
  rw [doConversionInt_typed, hempty] at heq
  exact absurd (Out.mk.inj (Option.some.inj heq)).1 (by decide)

end Kvi.Printf
