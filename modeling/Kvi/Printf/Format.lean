import Kvi.Library.Word
import Mathlib.Data.List.TakeWhile
import Mathlib.Data.Nat.Bitwise

/-! Format strings.

`parse_format` is entered behind a `'%'` and runs through five stages: flags,
width, precision, length modifiers, conversion. The source jumps from one stage
into the middle of the next, handing over the character it has just read. Each
stage is a function of that character and of the rest of the format here. A
format is the list of its bytes, the NUL included; reading on where the list has
ended has no result.

`Directive.read` is the grammar in its own terms: each part is the longest run of
its characters. `parseFormat_read` shows that the two agree. -/
namespace Kvi.Printf

/-- A character of the source text, as a `char`. -/
def ch (c : Char) : Int8 := Int8.ofNat c.toNat

/-! ### The flags -/

def FLAG_ALTERNATE_FORM : Nat := 0x1
def FLAG_ZERO_PADDED : Nat := 0x2
def FLAG_LEFT_ADJUSTED : Nat := 0x4
def FLAG_POSITIVE_BLANK : Nat := 0x8
def FLAG_POSITIVE_SIGN : Nat := 0x10
def HAS_WIDTH : Nat := 0x20
def HAS_PRECISION : Nat := 0x40
def LENGTH_SHORT : Nat := 0x80
def LENGTH_CHAR : Nat := 0x100
def LENGTH_LONG : Nat := 0x200
def LENGTH_LONGLONG : Nat := 0x400
def LENGTH_INTMAX : Nat := 0x800
def LENGTH_SIZE : Nat := 0x1000
def LENGTH_PTRDIFF : Nat := 0x2000
def CONVERSION_INT : Nat := 0x4000
def CONVERSION_DECIMAL : Nat := 0x8000
def CONVERSION_UINT : Nat := 0x10000
def CONVERSION_OCTAL : Nat := 0x20000
def CONVERSION_CAPITAL : Nat := 0x40000
def CONVERSION_HEXADECIMAL : Nat := 0x80000
def CONVERSION_CHARACTER : Nat := 0x100000
def CONVERSION_CHARP : Nat := 0x200000
def CONVERSION_VOIDP : Nat := 0x400000
def CONVERSION_NONE : Nat := 0x800000
def END_STRING : Nat := 0x1000000
def FLAG_MINUS : Nat := 0x2000000
def FLAG_PLUS : Nat := 0x4000000

/-- `f & flag`, as a condition. -/
def has (f flag : Nat) : Bool := f &&& flag != 0

/-! ### The stages -/

/-- What `parse_format` returns, with the width, the precision and the format it leaves. -/
structure Parsed where
  f : Nat
  width : Int
  precision : Int
  format : List Int8
  deriving DecidableEq, Repr

/-- `c >= '0' && c <= '9'` -/
def isDigit (c : Int8) : Bool := decide (48 ≤ c.toInt ∧ c.toInt ≤ 57)

/-- `*width *= 10; *width += (c - '0')` -/
def addDigit (n : Int) (c : Int8) : Int := int32 (int32 (n * 10) + (c.toInt - 48))

/-- The flag a character stands for. -/
def flagOf (c : Int8) : Option Nat :=
  if c = ch '#' then some FLAG_ALTERNATE_FORM
  else if c = ch '0' then some FLAG_ZERO_PADDED
  else if c = ch '-' then some FLAG_LEFT_ADJUSTED
  else if c = ch ' ' then some FLAG_POSITIVE_BLANK
  else if c = ch '+' then some FLAG_POSITIVE_SIGN
  else none

/-- The flags with a length modifier added, if the character is one. -/
def lengthOf (c : Int8) (r : Nat) : Option Nat :=
  if c = ch 'h' then
    some (if has r LENGTH_SHORT then r ||| LENGTH_CHAR else r ||| LENGTH_SHORT)
  else if c = ch 'l' then
    some (if has r LENGTH_LONG then r ||| LENGTH_LONGLONG else r ||| LENGTH_LONG)
  else if c = ch 'j' then some (r ||| LENGTH_INTMAX)
  else if c = ch 'z' then some (r ||| LENGTH_SIZE)
  else if c = ch 't' then some (r ||| LENGTH_PTRDIFF)
  else none

def parseConversion (c : Int8) (r : Nat) : Nat :=
  if c = ch 'd' ∨ c = ch 'i' then r ||| (CONVERSION_INT ||| CONVERSION_DECIMAL)
  else if c = ch 'o' then r ||| (CONVERSION_UINT ||| CONVERSION_OCTAL)
  else if c = ch 'u' then r ||| (CONVERSION_UINT ||| CONVERSION_DECIMAL)
  else if c = ch 'X' then
    r ||| CONVERSION_CAPITAL ||| (CONVERSION_UINT ||| CONVERSION_HEXADECIMAL)
  else if c = ch 'x' then r ||| (CONVERSION_UINT ||| CONVERSION_HEXADECIMAL)
  else if c = ch 'c' then r ||| (CONVERSION_INT ||| CONVERSION_CHARACTER)
  else if c = ch 's' then r ||| CONVERSION_CHARP
  else if c = ch 'p' then
    r ||| (CONVERSION_VOIDP ||| CONVERSION_HEXADECIMAL ||| FLAG_ALTERNATE_FORM)
  else if c = ch '%' then r ||| CONVERSION_NONE
  else r

def parseLengthModifier (c : Int8) (format : List Int8) (r : Nat) (width precision : Int) :
    Option Parsed :=
  match lengthOf c r with
  | none => some ⟨parseConversion c r, width, precision, format⟩
  | some r =>
    match format with
    | [] => none
    | c :: format =>
      if c = 0 then some ⟨END_STRING, width, precision, format⟩
      else parseLengthModifier c format r width precision

/-- The digits behind the `'.'`. -/
def parsePrecisionDigits (format : List Int8) (r : Nat) (width precision : Int) : Option Parsed :=
  match format with
  | [] => none
  | c :: format =>
    if c = 0 then some ⟨END_STRING, width, precision, format⟩
    else if isDigit c then parsePrecisionDigits format r width (addDigit precision c)
    else parseLengthModifier c format r width precision

def parsePrecision (c : Int8) (format : List Int8) (r : Nat) (width : Int) : Option Parsed :=
  if c ≠ ch '.' then parseLengthModifier c format r width 0
  else parsePrecisionDigits format (r ||| HAS_PRECISION) width 0

def parseWidth (c : Int8) (format : List Int8) (r : Nat) (width : Int) : Option Parsed :=
  if isDigit c then
    match format with
    | [] => none
    | c' :: format =>
      if c' = 0 then some ⟨END_STRING, addDigit width c, 0, format⟩
      else parseWidth c' format (r ||| HAS_WIDTH) (addDigit width c)
  else parsePrecision c format r width

def parseFlags (format : List Int8) (r : Nat) : Option Parsed :=
  match format with
  | [] => none
  | c :: format =>
    if c = 0 then some ⟨END_STRING, 0, 0, format⟩
    else
      match flagOf c with
      | some flag => parseFlags format (r ||| flag)
      | none => parseWidth c format r 0

def parseFormat (format : List Int8) : Option Parsed := parseFlags format 0

/-! ### The grammar -/

def isFlag (c : Int8) : Bool := (flagOf c).isSome
def isLength (c : Int8) : Bool := (lengthOf c 0).isSome

/-- What stands behind a `'%'`. -/
structure Directive where
  flags : List Int8
  width : List Int8
  precision : Option (List Int8)
  length : List Int8
  conversion : Int8
  deriving DecidableEq, Repr

namespace Directive

/-- The precision with its `'.'`. -/
def dotted : Option (List Int8) → List Int8
  | none => []
  | some digits => ch '.' :: digits

/-- How the directive is spelled. -/
def text (d : Directive) : List Int8 :=
  d.flags ++ d.width ++ dotted d.precision ++ d.length ++ [d.conversion]

/-- `[#0- +]* [0-9]* ('.' [0-9]*)? [hljzt]* c` -/
structure Spelled (d : Directive) : Prop where
  flags : ∀ c ∈ d.flags, isFlag c
  width : ∀ c ∈ d.width, isDigit c
  precision : ∀ digits, d.precision = some digits → ∀ c ∈ digits, isDigit c
  length : ∀ c ∈ d.length, isLength c

/-- The precision at the start of `s`, if there is one, and what follows. -/
def readPrecision : List Int8 → Option (List Int8) × List Int8
  | [] => (none, [])
  | c :: s => if c = ch '.' then (some (s.takeWhile isDigit), s.dropWhile isDigit) else (none, c :: s)

/-- The directive at the start of `s` and what follows; none when `s` ends before its conversion. -/
def read (s : List Int8) : Option (Directive × List Int8) :=
  let s₁ := s.dropWhile isFlag
  let s₂ := s₁.dropWhile isDigit
  let s₃ := (readPrecision s₂).2
  match s₃.dropWhile isLength with
  | [] => none
  | c :: rest =>
    some (⟨s.takeWhile isFlag, s₁.takeWhile isDigit, (readPrecision s₂).1, s₃.takeWhile isLength, c⟩,
      rest)

end Directive

/-- The number a run of digits denotes. -/
def decimal (digits : List Int8) : Nat := digits.foldl (fun n c => n * 10 + (c.toInt - 48).toNat) 0

/-- The flags with one flag character added. -/
def addFlag (r : Nat) (c : Int8) : Nat := r ||| (flagOf c).getD 0

/-- The flags with one length modifier added. -/
def addLength (r : Nat) (c : Int8) : Nat := (lengthOf c r).getD r

namespace Directive

/-- The flags of the parts before the length modifiers. -/
def given (d : Directive) : Nat :=
  let r := d.flags.foldl addFlag 0
  let r := if d.width = [] then r else r ||| HAS_WIDTH
  if d.precision = none then r else r ||| HAS_PRECISION

/-- The flags `parse_format` returns for the directive. -/
def bits (d : Directive) : Nat := parseConversion d.conversion (d.length.foldl addLength d.given)

/-- The digits of the precision. -/
def precisionDigits (d : Directive) : List Int8 := d.precision.getD []

end Directive

/-! ### The stages read the grammar -/

variable {c : Int8} {s t z : List Int8} {r : Nat} {w p : Int} {o : Option Parsed} {d : Directive}

/-- The format ended inside the directive. -/
def Cut (o : Option Parsed) : Prop := ∃ q, o = some q ∧ q.f = END_STRING

/-- A stage that leaves `s`: it was cut off, or it hands the first character of `s` to `next`. -/
def Leaves (o : Option Parsed) (s : List Int8) (next : Int8 → List Int8 → Option Parsed) : Prop :=
  match s with
  | [] => Cut o
  | c :: rest => o = next c rest

theorem isSome_lengthOf : (lengthOf c r).isSome = isLength c := by
  unfold isLength lengthOf
  split_ifs <;> rfl

theorem lengthOf_of_not (h : isLength c = false) : lengthOf c r = none := by
  rw [← Option.not_isSome_iff_eq_none, isSome_lengthOf, h]
  exact Bool.false_ne_true

theorem lengthOf_of (h : isLength c = true) : lengthOf c r = some (addLength r c) := by
  obtain ⟨r', hr⟩ := Option.isSome_iff_exists.mp ((isSome_lengthOf (r := r)).trans h)
  rw [addLength, hr, Option.getD_some]

theorem not_mem_cons (h : 0 ∉ c :: t) : c ≠ 0 ∧ 0 ∉ t :=
  ⟨fun heq => h (heq ▸ List.mem_cons_self ..), fun hm => h (List.mem_cons_of_mem _ hm)⟩

theorem parseLengthModifier_leaves (h : 0 ∉ t) :
    Leaves (parseLengthModifier c (t ++ 0 :: z) r w p) ((c :: t).dropWhile isLength)
      fun c' rest => some ⟨parseConversion c' (((c :: t).takeWhile isLength).foldl addLength r), w, p,
        rest ++ 0 :: z⟩ := by
  induction t generalizing c r with
  | nil =>
    cases hc : isLength c
    · rw [List.dropWhile_cons_of_neg (by simp [hc]), List.takeWhile_cons_of_neg (by simp [hc])]
      show parseLengthModifier _ _ _ _ _ = _
      rw [parseLengthModifier, lengthOf_of_not hc]
      rfl
    · rw [List.dropWhile_cons_of_pos hc]
      refine ⟨⟨END_STRING, w, p, z⟩, ?_, rfl⟩
      rw [parseLengthModifier, lengthOf_of hc]
      exact if_pos rfl
  | cons c₂ t ih =>
    obtain ⟨h0, ht⟩ := not_mem_cons h
    cases hc : isLength c
    · rw [List.dropWhile_cons_of_neg (by simp [hc]), List.takeWhile_cons_of_neg (by simp [hc])]
      show parseLengthModifier _ _ _ _ _ = _
      rw [parseLengthModifier, lengthOf_of_not hc]
      rfl
    · have hstep : parseLengthModifier c (c₂ :: t ++ 0 :: z) r w p =
          parseLengthModifier c₂ (t ++ 0 :: z) (addLength r c) w p := by
        rw [parseLengthModifier, lengthOf_of hc]
        exact if_neg h0
      rw [List.dropWhile_cons_of_pos hc, List.takeWhile_cons_of_pos hc, hstep, List.foldl_cons]
      exact ih ht

theorem parsePrecisionDigits_leaves (h : 0 ∉ t) :
    Leaves (parsePrecisionDigits (t ++ 0 :: z) r w p) (t.dropWhile isDigit) fun c' rest =>
      parseLengthModifier c' (rest ++ 0 :: z) r w ((t.takeWhile isDigit).foldl addDigit p) := by
  induction t generalizing p with
  | nil => exact ⟨⟨END_STRING, w, p, z⟩, if_pos rfl, rfl⟩
  | cons c t ih =>
    obtain ⟨h0, ht⟩ := not_mem_cons h
    rw [List.cons_append, parsePrecisionDigits, if_neg h0]
    cases hc : isDigit c
    · rw [List.dropWhile_cons_of_neg (by simp [hc]), List.takeWhile_cons_of_neg (by simp [hc])]
      rfl
    · rw [List.dropWhile_cons_of_pos hc, List.takeWhile_cons_of_pos hc, List.foldl_cons]
      exact ih ht

theorem parseWidth_of_not (h : isDigit c = false) : parseWidth c s r w = parsePrecision c s r w := by
  rw [parseWidth.eq_def, h]
  rfl

theorem parseWidth_of {c' : Int8} (h : isDigit c = true) : parseWidth c (c' :: s) r w =
    if c' = 0 then some ⟨END_STRING, addDigit w c, 0, s⟩
    else parseWidth c' s (r ||| HAS_WIDTH) (addDigit w c) := by
  rw [parseWidth.eq_def, h]
  rfl

theorem parseWidth_leaves (h : 0 ∉ t) :
    Leaves (parseWidth c (t ++ 0 :: z) r w) ((c :: t).dropWhile isDigit) fun c' rest =>
      parsePrecision c' (rest ++ 0 :: z)
        (if (c :: t).takeWhile isDigit = [] then r else r ||| HAS_WIDTH)
        (((c :: t).takeWhile isDigit).foldl addDigit w) := by
  induction t generalizing c r w with
  | nil =>
    cases hc : isDigit c
    · rw [List.dropWhile_cons_of_neg (by simp [hc]), List.takeWhile_cons_of_neg (by simp [hc])]
      exact parseWidth_of_not hc
    · rw [List.dropWhile_cons_of_pos hc]
      refine ⟨⟨END_STRING, addDigit w c, 0, z⟩, ?_, rfl⟩
      rw [List.nil_append, parseWidth_of hc]
      exact if_pos rfl
  | cons c₂ t ih =>
    obtain ⟨h0, ht⟩ := not_mem_cons h
    cases hc : isDigit c
    · rw [List.dropWhile_cons_of_neg (by simp [hc]), List.takeWhile_cons_of_neg (by simp [hc])]
      exact parseWidth_of_not hc
    · have hstep : parseWidth c (c₂ :: t ++ 0 :: z) r w =
          parseWidth c₂ (t ++ 0 :: z) (r ||| HAS_WIDTH) (addDigit w c) := by
        rw [List.cons_append, parseWidth_of hc]
        exact if_neg h0
      have hor : (if (c₂ :: t).takeWhile isDigit = [] then r ||| HAS_WIDTH
          else r ||| HAS_WIDTH ||| HAS_WIDTH) = r ||| HAS_WIDTH := by
        rw [Nat.or_assoc, Nat.or_self, ite_self]
      have hnext := ih (c := c₂) (r := r ||| HAS_WIDTH) (w := addDigit w c) ht
      rw [hor] at hnext
      rw [List.dropWhile_cons_of_pos hc, List.takeWhile_cons_of_pos hc, hstep, List.foldl_cons,
        if_neg (List.cons_ne_nil _ _)]
      exact hnext

theorem parseFlags_leaves (h : 0 ∉ t) :
    Leaves (parseFlags (t ++ 0 :: z) r) (t.dropWhile isFlag) fun c' rest =>
      parseWidth c' (rest ++ 0 :: z) ((t.takeWhile isFlag).foldl addFlag r) 0 := by
  induction t generalizing r with
  | nil => exact ⟨⟨END_STRING, 0, 0, z⟩, if_pos rfl, rfl⟩
  | cons c t ih =>
    obtain ⟨h0, ht⟩ := not_mem_cons h
    rw [List.cons_append, parseFlags, if_neg h0]
    cases hc : flagOf c with
    | none =>
      have hf : ¬ isFlag c = true := by simp [isFlag, hc]
      rw [List.dropWhile_cons_of_neg hf, List.takeWhile_cons_of_neg hf]
      rfl
    | some flag =>
      have hf : isFlag c = true := by simp [isFlag, hc]
      have hadd : r ||| flag = addFlag r c := by rw [addFlag, hc, Option.getD_some]
      rw [List.dropWhile_cons_of_pos hf, List.takeWhile_cons_of_pos hf, List.foldl_cons, ← hadd]
      exact ih ht

theorem not_mem_dropWhile {q : Int8 → Bool} (h : 0 ∉ s) : 0 ∉ s.dropWhile q :=
  fun hm => h ((List.dropWhile_suffix q).subset hm)

theorem parsePrecision_leaves (h : 0 ∉ t) :
    Leaves (parsePrecision c (t ++ 0 :: z) r w)
      ((Directive.readPrecision (c :: t)).2.dropWhile isLength) fun c' rest =>
      some ⟨parseConversion c' (((Directive.readPrecision (c :: t)).2.takeWhile isLength).foldl addLength
          (if (Directive.readPrecision (c :: t)).1 = none then r else r ||| HAS_PRECISION)), w,
        ((Directive.readPrecision (c :: t)).1.getD []).foldl addDigit 0, rest ++ 0 :: z⟩ := by
  by_cases hc : c = ch '.'
  · have hread : Directive.readPrecision (c :: t) =
        (some (t.takeWhile isDigit), t.dropWhile isDigit) := if_pos hc
    have hstage : parsePrecision c (t ++ 0 :: z) r w =
        parsePrecisionDigits (t ++ 0 :: z) (r ||| HAS_PRECISION) w 0 := if_neg (not_not_intro hc)
    have hdigits := parsePrecisionDigits_leaves (r := r ||| HAS_PRECISION) (w := w) (p := 0)
      (z := z) h
    rw [hread, hstage]
    dsimp only
    cases hleft : t.dropWhile isDigit with
    | nil =>
      rw [hleft] at hdigits
      exact hdigits
    | cons c' rest =>
      rw [hleft] at hdigits
      have hdigits : _ = parseLengthModifier _ _ _ _ _ := hdigits
      have hrest := not_mem_dropWhile (q := isDigit) h
      rw [hleft] at hrest
      rw [hdigits]
      exact parseLengthModifier_leaves (not_mem_cons hrest).2
  · have hread : Directive.readPrecision (c :: t) = (none, c :: t) := if_neg hc
    have hstage : parsePrecision c (t ++ 0 :: z) r w =
        parseLengthModifier c (t ++ 0 :: z) r w 0 := if_pos hc
    rw [hread, hstage]
    exact parseLengthModifier_leaves h

/-- What `parse_format` makes of a directive. -/
def Directive.parsed (d : Directive) (rest : List Int8) : Parsed :=
  ⟨d.bits, d.width.foldl addDigit 0, d.precisionDigits.foldl addDigit 0, rest⟩

/-- `parse_format` reads the directive the grammar reads, and stops behind it; where the grammar
finds none the format ended. -/
theorem parseFormat_read (h : 0 ∉ s) :
    match Directive.read s with
    | none => Cut (parseFormat (s ++ 0 :: z))
    | some (d, rest) => parseFormat (s ++ 0 :: z) = some (d.parsed (rest ++ 0 :: z)) := by
  have hflags := parseFlags_leaves (r := 0) (z := z) h
  rw [← parseFormat] at hflags
  unfold Directive.read
  dsimp only
  have h0₁ := not_mem_dropWhile (q := isFlag) h
  cases h₁ : s.dropWhile isFlag with
  | nil =>
    rw [h₁] at hflags
    exact hflags
  | cons c₁ t₁ =>
    rw [h₁] at hflags h0₁
    have hflags : parseFormat _ = parseWidth _ _ _ _ := hflags
    have h0₂ := not_mem_dropWhile (q := isDigit) h0₁
    have hwidth := parseWidth_leaves (c := c₁) (r := (s.takeWhile isFlag).foldl addFlag 0) (w := 0)
      (z := z) (not_mem_cons h0₁).2
    rw [← hflags] at hwidth
    cases h₂ : (c₁ :: t₁).dropWhile isDigit with
    | nil =>
      rw [h₂] at hwidth
      exact hwidth
    | cons c₂ t₂ =>
      rw [h₂] at hwidth h0₂
      have hwidth : parseFormat _ = parsePrecision _ _ _ _ := hwidth
      have hprecision := parsePrecision_leaves (c := c₂)
        (r := if (c₁ :: t₁).takeWhile isDigit = [] then (s.takeWhile isFlag).foldl addFlag 0
          else (s.takeWhile isFlag).foldl addFlag 0 ||| HAS_WIDTH)
        (w := ((c₁ :: t₁).takeWhile isDigit).foldl addDigit 0) (z := z) (not_mem_cons h0₂).2
      rw [← hwidth] at hprecision
      cases h₃ : (Directive.readPrecision (c₂ :: t₂)).2.dropWhile isLength with
      | nil =>
        rw [h₃] at hprecision
        exact hprecision
      | cons c₃ t₃ =>
        rw [h₃] at hprecision
        exact hprecision

/-! ### What the grammar reads -/

theorem Directive.readPrecision_append :
    Directive.dotted (readPrecision s).1 ++ (readPrecision s).2 = s := by
  cases s with
  | nil => rfl
  | cons c s =>
    rw [readPrecision]
    by_cases hc : c = ch '.'
    · rw [if_pos hc, hc]
      exact congrArg _ List.takeWhile_append_dropWhile
    · rw [if_neg hc]
      rfl

/-- A directive is read off the string as it is spelled. -/
theorem Directive.read_text {rest : List Int8} (h : read s = some (d, rest)) : s = d.text ++ rest := by
  unfold read at h
  dsimp only at h
  cases hleft : (readPrecision ((s.dropWhile isFlag).dropWhile isDigit)).2.dropWhile isLength with
  | nil =>
    rw [hleft] at h
    cases h
  | cons c t =>
    rw [hleft] at h
    obtain ⟨rfl, rfl⟩ := Prod.mk.inj (Option.some.inj h)
    calc s = s.takeWhile isFlag ++ s.dropWhile isFlag := List.takeWhile_append_dropWhile.symm
      _ = s.takeWhile isFlag ++ ((s.dropWhile isFlag).takeWhile isDigit ++
          (Directive.dotted (readPrecision ((s.dropWhile isFlag).dropWhile isDigit)).1 ++
            ((readPrecision ((s.dropWhile isFlag).dropWhile isDigit)).2.takeWhile isLength ++
              c :: t))) := by
        rw [← hleft, List.takeWhile_append_dropWhile (p := isLength), Directive.readPrecision_append,
          List.takeWhile_append_dropWhile (p := isDigit), List.takeWhile_append_dropWhile]
      _ = _ := by
        simp only [Directive.text, List.append_assoc, List.cons_append, List.nil_append]

theorem Directive.read_spelled {rest : List Int8} (h : read s = some (d, rest)) : d.Spelled := by
  have htake : ∀ {q : Int8 → Bool} {l : List Int8}, ∀ c ∈ l.takeWhile q, q c :=
    fun c hc => List.mem_takeWhile_imp hc
  unfold read at h
  dsimp only at h
  cases hleft : (readPrecision ((s.dropWhile isFlag).dropWhile isDigit)).2.dropWhile isLength with
  | nil =>
    rw [hleft] at h
    cases h
  | cons c t =>
    rw [hleft] at h
    obtain ⟨rfl, rfl⟩ := Prod.mk.inj (Option.some.inj h)
    refine ⟨htake, htake, fun digits hdigits => ?_, htake⟩
    have hdigits : (readPrecision ((s.dropWhile isFlag).dropWhile isDigit)).1 = some digits := hdigits
    cases hs : (s.dropWhile isFlag).dropWhile isDigit with
    | nil =>
      rw [hs] at hdigits
      cases hdigits
    | cons c' s' =>
      rw [hs, readPrecision] at hdigits
      by_cases hc : c' = ch '.'
      · rw [if_pos hc] at hdigits
        rw [← Option.some.inj hdigits]
        exact htake
      · rw [if_neg hc] at hdigits
        cases hdigits

/-- Reading a directive takes something off the string. -/
theorem Directive.read_length {rest : List Int8} (h : read s = some (d, rest)) :
    rest.length < s.length := by
  rw [read_text h, Directive.text, List.length_append, List.length_append, List.length_singleton]
  omega

theorem addDigit_eq {n : Nat} (hc : isDigit c = true) :
    addDigit (int32 n) c = int32 ((n * 10 + (c.toInt - 48).toNat : Nat) : Int) := by
  obtain ⟨hlo, _⟩ := of_decide_eq_true hc
  rw [addDigit, int32_eq, int32_eq, int32_eq, int32_eq]
  omega

theorem foldl_addDigit {digits : List Int8} {n : Nat} (h : ∀ c ∈ digits, isDigit c) :
    digits.foldl addDigit (int32 n) =
      int32 ((digits.foldl (fun n c => n * 10 + (c.toInt - 48).toNat) n : Nat) : Int) := by
  induction digits generalizing n with
  | nil => rfl
  | cons c cs ih =>
    rw [List.foldl_cons, List.foldl_cons, addDigit_eq (h c (List.mem_cons_self ..))]
    exact ih fun c hc => h c (List.mem_cons_of_mem _ hc)

/-- A run of digits that denotes less than `2^31` is read as what it denotes. -/
theorem foldl_addDigit_zero {digits : List Int8} (h : ∀ c ∈ digits, isDigit c)
    (hlt : decimal digits < 2 ^ 31) : digits.foldl addDigit 0 = decimal digits := by
  have hfold := foldl_addDigit (n := 0) h
  have hzero : int32 ((0 : Nat) : Int) = 0 := by decide
  rw [hzero, ← decimal] at hfold
  rw [hfold]
  exact int32_of_range (by omega) (by omega)

/-! ### The flags that are set -/

theorem has_or {a b flag : Nat} : has (a ||| b) flag = (has a flag || has b flag) := by
  have hzero : (a ||| b) &&& flag = 0 ↔ a &&& flag = 0 ∧ b &&& flag = 0 := by
    rw [Nat.and_or_distrib_right, Nat.or_eq_zero_iff]
  rw [Bool.eq_iff_iff, Bool.or_eq_true, has, has, has, bne_iff_ne, bne_iff_ne, bne_iff_ne, ne_eq, hzero]
  exact Classical.not_and_iff_not_or_not

/-- The characters of the flags, with their bits. -/
def flagBits : List (Int8 × Nat) :=
  [(ch '#', FLAG_ALTERNATE_FORM), (ch '0', FLAG_ZERO_PADDED), (ch '-', FLAG_LEFT_ADJUSTED),
    (ch ' ', FLAG_POSITIVE_BLANK), (ch '+', FLAG_POSITIVE_SIGN)]

section
variable {flag : Nat} (h : (c, flag) ∈ flagBits)
include h

theorem has_flagOf (x : Int8) : has ((flagOf x).getD 0) flag = decide (x = c) := by
  simp only [flagBits, List.mem_cons, List.not_mem_nil, or_false, Prod.mk.injEq] at h
  by_cases hx : isFlag x = true
  · have hcase : x = ch '#' ∨ x = ch '0' ∨ x = ch '-' ∨ x = ch ' ' ∨ x = ch '+' := by
      by_contra hnone
      simp only [not_or] at hnone
      simp [isFlag, flagOf, hnone] at hx
    rcases hcase with rfl | rfl | rfl | rfl | rfl <;>
      rcases h with ⟨rfl, rfl⟩ | ⟨rfl, rfl⟩ | ⟨rfl, rfl⟩ | ⟨rfl, rfl⟩ | ⟨rfl, rfl⟩ <;> decide
  · have hnone : flagOf x = none := by simpa [isFlag] using hx
    have hne : x ≠ c := by
      intro heq
      rw [heq] at hx
      rcases h with ⟨rfl, rfl⟩ | ⟨rfl, rfl⟩ | ⟨rfl, rfl⟩ | ⟨rfl, rfl⟩ | ⟨rfl, rfl⟩ <;> exact hx (by decide)
    rw [hnone, Option.getD_none, decide_eq_false hne, has, Nat.zero_and]
    rfl

theorem has_foldl_addFlag (cs : List Int8) :
    has (cs.foldl addFlag r) flag = (has r flag || decide (c ∈ cs)) := by
  induction cs generalizing r with
  | nil => simp
  | cons x cs ih =>
    rw [List.foldl_cons, ih, addFlag, has_or, has_flagOf h, Bool.or_assoc]
    simp only [List.mem_cons, Bool.decide_or, eq_comm]

/-- The flags are the five lowest bits. -/
theorem has_high {b : Nat} (hb : b % 32 = 0) : has b flag = false := by
  have hbit : ∀ i < 5, b &&& 2 ^ i = 0 := by
    intro i hi
    have hfalse : b.testBit i = false := by
      rw [Nat.testBit_eq_decide_div_mod_eq, decide_eq_false_iff_not]
      interval_cases i <;> omega
    rw [Nat.and_two_pow, hfalse, Bool.toNat_false, Nat.zero_mul]
  have hzero : b &&& flag = 0 := by
    simp only [flagBits, List.mem_cons, List.not_mem_nil, or_false, Prod.mk.injEq] at h
    rcases h with ⟨_, rfl⟩ | ⟨_, rfl⟩ | ⟨_, rfl⟩ | ⟨_, rfl⟩ | ⟨_, rfl⟩
    · exact hbit 0 (by decide)
    · exact hbit 1 (by decide)
    · exact hbit 2 (by decide)
    · exact hbit 3 (by decide)
    · exact hbit 4 (by decide)
  rw [has, hzero]
  rfl

theorem has_or_high {b : Nat} (hb : b % 32 = 0) : has (r ||| b) flag = has r flag := by
  rw [has_or, has_high h hb, Bool.or_false]

theorem has_addLength (x : Int8) : has (addLength r x) flag = has r flag := by
  unfold addLength lengthOf
  split_ifs <;> first | rfl | exact has_or_high h (by decide)

theorem has_foldl_addLength (cs : List Int8) : has (cs.foldl addLength r) flag = has r flag := by
  induction cs generalizing r with
  | nil => rfl
  | cons x cs ih => rw [List.foldl_cons, ih, has_addLength h]

theorem has_parseConversion (x : Int8) : has (parseConversion x r) flag =
    (has r flag || decide (c = ch '#' ∧ x = ch 'p')) := by
  by_cases hp : x = ch 'p'
  · have hbits : has (CONVERSION_VOIDP ||| CONVERSION_HEXADECIMAL ||| FLAG_ALTERNATE_FORM) flag =
        decide (c = ch '#' ∧ ch 'p' = ch 'p') := by
      simp only [flagBits, List.mem_cons, List.not_mem_nil, or_false, Prod.mk.injEq] at h
      rcases h with ⟨rfl, rfl⟩ | ⟨rfl, rfl⟩ | ⟨rfl, rfl⟩ | ⟨rfl, rfl⟩ | ⟨rfl, rfl⟩ <;> decide
    rw [hp, ← hbits]
    exact has_or
  · rw [decide_eq_false fun hc => hp hc.2, Bool.or_false]
    unfold parseConversion
    rw [if_neg hp]
    split_ifs <;> first
      | rfl
      | exact has_or_high h (by decide)
      | exact (has_or_high h (by decide)).trans (has_or_high h (by decide))

/-- The flags set are those present; `%p` has the alternate form as well. -/
theorem Directive.has_bits : has d.bits flag = true ↔
    c ∈ d.flags ∨ c = ch '#' ∧ d.conversion = ch 'p' := by
  have hgiven : has d.given flag = decide (c ∈ d.flags) := by
    have hflags := has_foldl_addFlag h (r := 0) d.flags
    rw [has_high h (b := 0) rfl, Bool.false_or] at hflags
    unfold given
    split_ifs <;>
      simp only [has_or_high h (b := HAS_WIDTH) rfl, has_or_high h (b := HAS_PRECISION) rfl, hflags]
  rw [bits, has_parseConversion h, has_foldl_addLength h, hgiven, Bool.or_eq_true, decide_eq_true_eq,
    decide_eq_true_eq]

end

end Kvi.Printf
