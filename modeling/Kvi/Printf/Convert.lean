import Kvi.Printf.Format
import Kvi.Library.Numeral

/-! What the conversions write.

A sink is the `func` and `data` of `do_printf`: it accepts a character or refuses
it, and may change its data either way. `PUTCHAR` leaves the function it stands in
when the sink refuses (`Except.error`); the count of accepted characters is an
`int`. A string is the bytes that can be read from its pointer on.

The `…Text` functions say what a conversion writes as long as nothing is refused;
each conversion is the putting of its text (`doConversionInt_eq`,
`doConversionString_eq`). -/
namespace Kvi.Printf

/-- `func (c, data)`: what it returns, and the data after the call. -/
abbrev Sink (δ : Type) := Int → δ → Int × δ

/-- The count `n` and the data of the sink. -/
structure Out (δ : Type) where
  n : Int
  data : δ

variable {δ : Type}

/-- `PUTCHAR (c)` -/
def putChar (func : Sink δ) (c : Int) (o : Out δ) : Except (Out δ) (Out δ) :=
  if (func c o.data).1 < 0 then .error ⟨o.n, (func c o.data).2⟩
  else .ok ⟨int32 (o.n + 1), (func c o.data).2⟩

/-- One `PUTCHAR` after the other. -/
def putAll (func : Sink δ) : List Int → Out δ → Except (Out δ) (Out δ)
  | [], o => .ok o
  | c :: cs, o => (putChar func c o).bind (putAll func cs)

/-- Behind the label `error` both ways meet. -/
def settle {α : Type} : Except α α → α
  | .ok a | .error a => a

/-! ### Digits -/

def sub10 : List Nat :=
  [10000000000000000000, 1000000000000000000, 100000000000000000, 10000000000000000,
    1000000000000000, 100000000000000, 10000000000000, 1000000000000, 100000000000, 10000000000,
    1000000000, 100000000, 10000000, 1000000, 100000, 10000, 1000, 100, 10, 1, 0]

def sub8 : List Nat :=
  [0o1000000000000000000000, 0o100000000000000000000, 0o10000000000000000000, 0o1000000000000000000,
    0o100000000000000000, 0o10000000000000000, 0o1000000000000000, 0o100000000000000,
    0o10000000000000, 0o1000000000000, 0o100000000000, 0o10000000000, 0o1000000000, 0o100000000,
    0o10000000, 0o1000000, 0o100000, 0o10000, 0o1000, 0o100, 0o10, 0o1, 0o0]

def sub16 : List Nat :=
  [0x1000000000000000, 0x100000000000000, 0x10000000000000, 0x1000000000000, 0x100000000000,
    0x10000000000, 0x1000000000, 0x100000000, 0x10000000, 0x1000000, 0x100000, 0x10000, 0x1000,
    0x100, 0x10, 0x1, 0x0]

/-- `while (val < *sub) sub++` -/
def skipLarger (val : Nat) : List Nat → Option (List Nat)
  | [] => none
  | p :: sub => if val < p then skipLarger val sub else some (p :: sub)

/-- `while (val >= *sub) { digit++; val -= *sub; }` -/
def takeOff (p val digit : Nat) : Nat × Nat :=
  if 0 < p ∧ p ≤ val then takeOff p (val - p) (digit + 1) else (digit, val)
termination_by val

/-- `while (*sub)`: the characters written, one for each entry of the table. -/
def writeDigits (str : List Int8) : List Nat → Nat → Option (List Int8)
  | [], _ => none
  | p :: sub, val =>
    if p = 0 then some []
    else
      (str[(takeOff p val 0).1]?).bind fun c =>
        (writeDigits str sub (takeOff p val 0).2).bind fun cs => some (c :: cs)

/-- What `valconv` writes to `buf`. No result is that it reads past the end of a table. -/
def valconv (val : Nat) (sub : List Nat) (str : List Int8) : Option (List Int8) :=
  if val = 0 then some [ch '0']
  else (skipLarger val sub).bind fun sub => writeDigits str sub val

def decimalDigits : List Int8 := ['0', '1', '2', '3', '4', '5', '6', '7', '8', '9'].map ch
def octalDigits : List Int8 := ['0', '1', '2', '3', '4', '5', '6', '7'].map ch
def lowerDigits : List Int8 := decimalDigits ++ ['a', 'b', 'c', 'd', 'e', 'f'].map ch
def upperDigits : List Int8 := decimalDigits ++ ['A', 'B', 'C', 'D', 'E', 'F'].map ch

/-! ### `do_conversion_int` -/

/-- The digits of the value in the base of the conversion. -/
def digitsOf (val f : Nat) : Option (List Int8) :=
  if has f CONVERSION_DECIMAL then valconv val sub10 decimalDigits
  else if has f CONVERSION_OCTAL then valconv val sub8 octalDigits
  else if has f CONVERSION_HEXADECIMAL ∧ has f CONVERSION_CAPITAL then valconv val sub16 upperDigits
  else if has f CONVERSION_HEXADECIMAL then valconv val sub16 lowerDigits
  else some []

/-- `leftbuf`: the sign, or the mark of the alternate form. -/
def leftbuf (val f : Nat) (leftzero : Int) : List Int8 :=
  if has f CONVERSION_DECIMAL then
    if has f FLAG_PLUS then
      if has f FLAG_POSITIVE_SIGN then [ch '+']
      else if has f FLAG_POSITIVE_BLANK then [ch ' ']
      else []
    else if has f FLAG_MINUS then [ch '-']
    else []
  else if has f FLAG_ALTERNATE_FORM ∧ val ≠ 0 then
    if has f CONVERSION_OCTAL ∧ leftzero = 0 then [ch '0']
    else if has f CONVERSION_HEXADECIMAL then
      if has f CONVERSION_CAPITAL then [ch '0', ch 'X'] else [ch '0', ch 'x']
    else []
  else []

/-- What surrounds the digits. -/
structure Layout where
  leftsp : Int
  leftbuf : List Int8
  leftzero : Int
  rightsp : Int
  deriving DecidableEq, Repr

/-- The sums are kept in an `int`. -/
def layoutInt (val f : Nat) (width precision : Int) (len : Nat) : Layout :=
  let leftzero := if has f HAS_PRECISION ∧ precision > len then int32 (precision - len) else 0
  let left := leftbuf val f leftzero
  let used := int32 (int32 (left.length + leftzero) + len)
  let space := if has f HAS_WIDTH ∧ width > used then int32 (width - used) else 0
  let rightsp := if has f FLAG_LEFT_ADJUSTED then space else 0
  let leftsp := if has f FLAG_LEFT_ADJUSTED then 0 else space
  if has f FLAG_ZERO_PADDED ∧ ¬ has f HAS_PRECISION then ⟨0, left, int32 (leftzero + leftsp), rightsp⟩
  else ⟨leftsp, left, leftzero, rightsp⟩

/-- What `while (x--) PUTCHAR (c)` puts. -/
def times (x : Int) (c : Int8) : List Int := List.replicate (ofInt32 x) c.toInt

def doConversionInt (val f : Nat) (width precision : Int) (func : Sink δ) (data : δ) :
    Option (Out δ) :=
  if has f CONVERSION_CHARACTER then some (settle (putChar func (s32 val) ⟨0, data⟩))
  else if has f HAS_PRECISION ∧ precision = 0 ∧ val = 0 then some ⟨0, data⟩
  else
    (digitsOf val f).bind fun buf =>
      let l := layoutInt val f width precision buf.length
      some <| settle <|
        (putAll func (times l.leftsp (ch ' ')) ⟨0, data⟩).bind fun o =>
          (putAll func (l.leftbuf.map Int8.toInt) o).bind fun o =>
            (putAll func (times l.leftzero (ch '0')) o).bind fun o =>
              (putAll func (buf.map Int8.toInt) o).bind fun o =>
                putAll func (times l.rightsp (ch ' ')) o

/-! ### `do_conversion_string` -/

/-- The loop that finds `len`: the bytes up to the NUL, or as many as the precision allows. -/
def scan (f : Nat) (precision : Int) (str : List Int8) (len : Nat) : Option Nat :=
  if has f HAS_PRECISION ∧ precision ≤ len then some len
  else
    match str with
    | [] => none
    | c :: str => if c = 0 then some len else scan f precision str (len + 1)

def doConversionString (str : List Int8) (f : Nat) (width precision : Int) (func : Sink δ) (data : δ) :
    Option (Out δ) :=
  (scan f precision str 0).bind fun len =>
    let space := if has f HAS_WIDTH ∧ width > len then int32 (width - len) else 0
    let rightsp := if has f FLAG_LEFT_ADJUSTED then space else 0
    let leftsp := if has f FLAG_LEFT_ADJUSTED then 0 else space
    some <| settle <|
      (putAll func (times leftsp (ch ' ')) ⟨0, data⟩).bind fun o =>
        (putAll func ((str.take len).map Int8.toInt) o).bind fun o =>
          putAll func (times rightsp (ch ' ')) o

/-! ### The texts -/

def intText (val f : Nat) (width precision : Int) : Option (List Int) :=
  if has f CONVERSION_CHARACTER then some [s32 val]
  else if has f HAS_PRECISION ∧ precision = 0 ∧ val = 0 then some []
  else
    (digitsOf val f).bind fun buf =>
      let l := layoutInt val f width precision buf.length
      some (times l.leftsp (ch ' ') ++ (l.leftbuf.map Int8.toInt ++ (times l.leftzero (ch '0') ++
        (buf.map Int8.toInt ++ times l.rightsp (ch ' ')))))

def stringText (str : List Int8) (f : Nat) (width precision : Int) : Option (List Int) :=
  (scan f precision str 0).bind fun len =>
    let space := if has f HAS_WIDTH ∧ width > len then int32 (width - len) else 0
    let rightsp := if has f FLAG_LEFT_ADJUSTED then space else 0
    let leftsp := if has f FLAG_LEFT_ADJUSTED then 0 else space
    some (times leftsp (ch ' ') ++ ((str.take len).map Int8.toInt ++ times rightsp (ch ' ')))

variable {func : Sink δ} {o o' : Out δ} {cs cs' : List Int} {c : Int} {data : δ} {val f : Nat}
  {width precision : Int} {str : List Int8}

theorem putAll_append :
    putAll func (cs ++ cs') = fun o => (putAll func cs o).bind (putAll func cs') := by
  funext o
  induction cs generalizing o with
  | nil => rfl
  | cons c cs ih =>
    rw [List.cons_append, putAll, putAll]
    cases putChar func c o with
    | error o' => rfl
    | ok o' => exact ih o'

theorem doConversionInt_eq : doConversionInt val f width precision func data =
    (intText val f width precision).map fun text => settle (putAll func text ⟨0, data⟩) := by
  unfold doConversionInt intText
  by_cases hc : has f CONVERSION_CHARACTER = true
  · rw [if_pos hc, if_pos hc, Option.map_some, putAll]
    cases putChar func (s32 val) ⟨0, data⟩ with
    | error o => rfl
    | ok o => rfl
  · rw [if_neg hc, if_neg hc]
    by_cases hz : has f HAS_PRECISION = true ∧ precision = 0 ∧ val = 0
    · rw [if_pos hz, if_pos hz]
      rfl
    · rw [if_neg hz, if_neg hz]
      cases digitsOf val f with
      | none => rfl
      | some buf => simp only [Option.bind_some, Option.map_some, putAll_append]

theorem doConversionString_eq : doConversionString str f width precision func data =
    (stringText str f width precision).map fun text => settle (putAll func text ⟨0, data⟩) := by
  unfold doConversionString stringText
  cases scan f precision str 0 with
  | none => rfl
  | some len => simp only [Option.bind_some, Option.map_some, putAll_append]

/-! ### Every value has its digits -/

/-- The tables: the powers of the base from the `k`-th down, and the `0` that ends them. -/
def powers (b : Nat) : Nat → List Nat
  | 0 => [1, 0]
  | k + 1 => b ^ (k + 1) :: powers b k

theorem takeOff_eq {p digit : Nat} (hp : 0 < p) : takeOff p val digit = (digit + val / p, val % p) := by
  induction val using Nat.strongRecOn generalizing digit with
  | _ val ih =>
    rw [takeOff]
    by_cases hle : p ≤ val
    · rw [if_pos ⟨hp, hle⟩, ih (val - p) (by omega), Nat.div_eq_sub_div hp hle, ← Nat.mod_eq_sub_mod hle,
        Nat.add_assoc, Nat.add_comm 1]
    · rw [if_neg fun hc => hle hc.2, Nat.div_eq_of_lt (by omega), Nat.mod_eq_of_lt (by omega),
        Nat.add_zero]

/-- The larger powers are skipped down to the first digit. -/
theorem skipLarger_powers {b k : Nat} (hpos : val ≠ 0) (hval : val < b ^ (k + 1)) :
    ∃ j ≤ k, skipLarger val (powers b k) = some (powers b j) ∧ b ^ j ≤ val ∧ val < b ^ (j + 1) := by
  induction k with
  | zero =>
    refine ⟨0, le_rfl, ?_, Nat.pos_of_ne_zero hpos, hval⟩
    rw [powers, skipLarger, if_neg (by omega)]
  | succ k ih =>
    by_cases hlt : val < b ^ (k + 1)
    · obtain ⟨j, hj, hskip, hbound⟩ := ih hlt
      refine ⟨j, by omega, ?_, hbound⟩
      rw [powers, skipLarger, if_pos hlt, hskip]
    · refine ⟨k + 1, le_rfl, ?_, Nat.le_of_not_lt hlt, hval⟩
      rw [powers, skipLarger, if_neg hlt]

/-- The character of a digit. -/
def digitChar (str : List Int8) (d : Nat) : Int8 := str.getD d 0

section
variable {b k : Nat} (hstr : str.length = b)
include hstr

/-- From the `k`-th power on there are `k + 1` digits. -/
theorem writeDigits_powers (hb : 0 < b) (hval : val < b ^ (k + 1)) :
    writeDigits str (powers b k) val = some ((digitsFrom b k val).map (digitChar str)) := by
  induction k generalizing val with
  | zero =>
    have hlt : val < str.length := by
      rw [hstr]
      simpa using hval
    have hdigit : (takeOff 1 val 0).1 = val := by
      rw [takeOff_eq (by decide)]
      simp
    rw [powers, writeDigits, if_neg (by decide), hdigit, List.getElem?_eq_getElem hlt, digitsFrom,
      List.map_singleton, digitChar, List.getD_eq_getElem _ _ hlt]
    rfl
  | succ k ih =>
    have hp : 0 < b ^ (k + 1) := Nat.pow_pos hb
    have hlt : val / b ^ (k + 1) < str.length := by
      rw [hstr]
      refine Nat.div_lt_of_lt_mul ?_
      rwa [← Nat.pow_succ]
    rw [powers, writeDigits, if_neg (by omega), takeOff_eq hp, Nat.zero_add, ih (Nat.mod_lt val hp),
      List.getElem?_eq_getElem hlt, digitsFrom, List.map_cons, digitChar, List.getD_eq_getElem _ _ hlt]
    rfl

/-- The digits written are those of the numeral. -/
theorem valconv_powers (hb : 1 < b) (hzero : digitChar str 0 = ch '0') (hval : val < b ^ (k + 1)) :
    valconv val (powers b k) str = some ((numeral b val).map (digitChar str)) ∧
      (numeral b val).length ≤ k + 1 := by
  by_cases hpos : val = 0
  · subst hpos
    rw [valconv, if_pos rfl, numeral, if_pos rfl, List.map_singleton, hzero]
    exact ⟨rfl, by simp⟩
  · obtain ⟨j, hj, hskip, hlo, hbound⟩ := skipLarger_powers hpos hval
    have hb0 : 0 < b := by omega
    have hnumeral : digitsFrom b j val = numeral b val := (isNumeral_digitsFrom hb0 hlo hbound).eq hb
    rw [valconv, if_neg hpos, hskip, Option.bind_some, writeDigits_powers hstr hb0 hbound, ← hnumeral,
      length_digitsFrom]
    exact ⟨rfl, by omega⟩

end

/-- A base as `do_conversion_int` has it: its table, down from the highest power that a 64-bit value
can have in it, and its digits. -/
structure Radix where
  base : Nat
  sub : List Nat
  str : List Int8
  top : Nat
  one_lt : 1 < base
  sub_eq : sub = powers base top
  str_length : str.length = base
  zero : digitChar str 0 = ch '0'
  top_lt : top < 22
  covers : 2 ^ 64 ≤ base ^ (top + 1)

namespace Radix

def decimal : Radix :=
  ⟨10, sub10, decimalDigits, 19, by decide, by decide, by decide, by decide, by decide, by decide⟩

def octal : Radix :=
  ⟨8, sub8, octalDigits, 21, by decide, by decide, by decide, by decide, by decide, by decide⟩

def lower : Radix :=
  ⟨16, sub16, lowerDigits, 15, by decide, by decide, by decide, by decide, by decide, by decide⟩

def upper : Radix :=
  ⟨16, sub16, upperDigits, 15, by decide, by decide, by decide, by decide, by decide, by decide⟩

variable (r : Radix)

/-- How a value is written in the base. -/
def digits (val : Nat) : List Int8 := (numeral r.base val).map (digitChar r.str)

variable {r} (hval : val < 2 ^ 64)
include hval

theorem valconv_eq : valconv val r.sub r.str = some (r.digits val) := by
  rw [r.sub_eq]
  exact (valconv_powers r.str_length r.one_lt r.zero (Nat.lt_of_lt_of_le hval r.covers)).1

theorem length_le : (r.digits val).length ≤ 22 := by
  have hlen := (valconv_powers r.str_length r.one_lt r.zero (Nat.lt_of_lt_of_le hval r.covers)).2
  have htop := r.top_lt
  rw [digits, List.length_map]
  omega

end Radix

/-- A 64-bit value has at most 22 digits, in each base. -/
theorem digitsOf_some (hval : val < 2 ^ 64) : ∃ cs, digitsOf val f = some cs ∧ cs.length ≤ 22 := by
  unfold digitsOf
  split_ifs
  · exact ⟨_, Radix.valconv_eq (r := .decimal) hval, Radix.length_le hval⟩
  · exact ⟨_, Radix.valconv_eq (r := .octal) hval, Radix.length_le hval⟩
  · exact ⟨_, Radix.valconv_eq (r := .upper) hval, Radix.length_le hval⟩
  · exact ⟨_, Radix.valconv_eq (r := .lower) hval, Radix.length_le hval⟩
  · exact ⟨[], rfl, by decide⟩

theorem intText_some (hval : val < 2 ^ 64) : ∃ text, intText val f width precision = some text := by
  obtain ⟨cs, hcs, _⟩ := digitsOf_some (f := f) hval
  unfold intText
  split_ifs
  · exact ⟨_, rfl⟩
  · exact ⟨_, rfl⟩
  · rw [hcs]
    exact ⟨_, rfl⟩

/-- The scan of a string that has its NUL, or the bytes that the precision allows, ends. -/
theorem scan_some {p : Int} {len : Nat}
    (h : 0 ∈ str ∨ has f HAS_PRECISION = true ∧ p ≤ (len + str.length : Nat)) :
    ∃ n, scan f p str len = some n := by
  induction str generalizing len with
  | nil =>
    have hlim : has f HAS_PRECISION = true ∧ p ≤ len := h.resolve_left List.not_mem_nil
    rw [scan, if_pos hlim]
    exact ⟨len, rfl⟩
  | cons c str ih =>
    rw [scan]
    by_cases hlim : has f HAS_PRECISION = true ∧ p ≤ len
    · exact ⟨len, if_pos hlim⟩
    · rw [if_neg hlim]
      by_cases hc : c = 0
      · exact ⟨len, if_pos hc⟩
      · have hrest : 0 ∈ str ∨ has f HAS_PRECISION = true ∧ p ≤ (len + 1 + str.length : Nat) := by
          refine h.imp (fun hm => (List.mem_cons.mp hm).resolve_left fun heq => hc heq.symm) fun hp => ?_
          rwa [List.length_cons, Nat.add_comm str.length, ← Nat.add_assoc] at hp
        obtain ⟨n, hn⟩ := ih hrest
        exact ⟨n, (if_neg hc).trans hn⟩

theorem stringText_some (h : 0 ∈ str ∨ has f HAS_PRECISION = true ∧ precision ≤ str.length) :
    ∃ text, stringText str f width precision = some text := by
  have hends : 0 ∈ str ∨ has f HAS_PRECISION = true ∧ precision ≤ (0 + str.length : Nat) := by
    rwa [Nat.zero_add]
  obtain ⟨len, hlen⟩ := scan_some hends
  rw [stringText, hlen]
  exact ⟨_, rfl⟩

end Kvi.Printf
