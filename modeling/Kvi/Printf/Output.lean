import Kvi.Printf.Convert

/-! `do_printf`.

The format is read byte by byte; a `'%'` hands the cursor to `parse_format`, whose
flags choose the conversion and how the next argument is taken. An argument is a
64-bit word of the `va_list`, and `strs` is what can be read from a pointer on. A
literal that the sink refuses ends the output; a conversion that is refused is
given up and the loop goes on. The spin lock around the loop is left out: each
call is one transition.

`split` cuts the format into literals and directives by the grammar, and `runPieces`
interprets those. The loop is that interpreter (`doPrintfLoop_eq`). -/
namespace Kvi.Printf

variable {δ : Type}

/-- The arguments: the words of the `va_list`, and the bytes at each pointer. -/
structure Args where
  word : Nat → Nat
  str : Nat → List Int8

/-- `LENGTH_INTMAX`, `LENGTH_SIZE` and `LENGTH_PTRDIFF` stand for other lengths. -/
def lengthFlags (f : Nat) : Nat :=
  if has f LENGTH_INTMAX then f ||| LENGTH_LONGLONG
  else if has f LENGTH_SIZE then f ||| LENGTH_LONG
  else if has f LENGTH_PTRDIFF then f ||| LENGTH_LONG
  else f

/-- `va_arg` for a signed conversion. -/
def intArg (f word : Nat) : Int :=
  if has f LENGTH_CHAR then s32 word
  else if has f LENGTH_SHORT then s32 word
  else if has f LENGTH_LONGLONG then s64 word
  else if has f LENGTH_LONG then s64 word
  else s32 word

/-- `va_arg` for an unsigned conversion. -/
def uintArg (f word : Nat) : Nat :=
  if has f LENGTH_CHAR then u32 word
  else if has f LENGTH_SHORT then u32 word
  else if has f LENGTH_LONGLONG then u64 word
  else if has f LENGTH_LONG then u64 word
  else u32 word

/-- The magnitude of a signed argument, with its sign as a flag. -/
def magnitude (f word : Nat) : Nat × Nat :=
  if intArg f word < 0 then (ofInt64 (-intArg f word), f ||| FLAG_MINUS)
  else (ofInt64 (intArg f word), f ||| FLAG_PLUS)

def nullString : List Int8 := ['(', 'n', 'u', 'l', 'l', ')'].map ch ++ [0]
def formatError : List Int8 := ['F', 'O', 'R', 'M', 'A', 'T', ' ', 'E', 'R', 'R', 'O', 'R'].map ch

/-- The string a pointer stands for. -/
def Args.string (args : Args) (word : Nat) : List Int8 :=
  if u64 word = 0 then nullString else args.str (u64 word)

/-- The conversion of a directive other than `%%`: how many arguments it takes, and what comes out
of it. -/
def doConversion (args : Args) (f : Nat) (width precision : Int) (ap : Nat) (func : Sink δ)
    (data : δ) : Option (Nat × Out δ) :=
  if has f CONVERSION_INT then
    (doConversionInt (magnitude f (args.word ap)).1 (magnitude f (args.word ap)).2 width precision
      func data).map fun r => (1, r)
  else if has f CONVERSION_UINT then
    (doConversionInt (uintArg f (args.word ap)) f width precision func data).map fun r => (1, r)
  else if has f CONVERSION_VOIDP then
    (doConversionInt (u64 (args.word ap)) f width precision func data).map fun r => (1, r)
  else if has f CONVERSION_CHARP then
    (doConversionString (args.string (args.word ap)) f width precision func data).map fun r => (1, r)
  else
    (doConversionString (formatError ++ [0]) CONVERSION_CHARP 0 0 func data).map fun r => (0, r)

/-- What a conversion writes as long as nothing is refused. -/
def conversionText (args : Args) (f : Nat) (width precision : Int) (ap : Nat) :
    Option (Nat × List Int) :=
  if has f CONVERSION_INT then
    (intText (magnitude f (args.word ap)).1 (magnitude f (args.word ap)).2 width precision).map
      fun text => (1, text)
  else if has f CONVERSION_UINT then
    (intText (uintArg f (args.word ap)) f width precision).map fun text => (1, text)
  else if has f CONVERSION_VOIDP then
    (intText (u64 (args.word ap)) f width precision).map fun text => (1, text)
  else if has f CONVERSION_CHARP then
    (stringText (args.string (args.word ap)) f width precision).map fun text => (1, text)
  else (stringText (formatError ++ [0]) CONVERSION_CHARP 0 0).map fun text => (0, text)

/-- The loop of `do_printf`, at `format` and the `ap`-th argument. -/
def Out.doPrintfLoop (args : Args) (func : Sink δ) (format : List Int8) (ap : Nat) (o : Out δ) :
    Option (Out δ) :=
  match format with
  | [] => none
  | c :: format =>
    if c = 0 then some o
    else if c = ch '%' then do
      let q ← parseFormat format
      let f := lengthFlags q.f
      if f = END_STRING then some o
      else if has f CONVERSION_NONE then
        match putChar func (ch '%').toInt o with
        | .error o => some o
        | .ok o => o |>.doPrintfLoop args func q.format ap
      else
        let (taken, r) ← doConversion args f q.width q.precision ap func o.data
        {n := int32 (o.n + r.n), data := r.data : Out δ} |>.doPrintfLoop args func q.format (ap + taken)
    else
      match putChar func c.toInt o with
      | .error o => some o
      | .ok o => o |>.doPrintfLoop args func format ap
partial_fixpoint

export Out (doPrintfLoop)

/-- `do_printf (format, ap, func, data)`: the count returned, and the data of the sink. -/
def doPrintf (args : Args) (func : Sink δ) (format : List Int8) (data : δ) : Option (Out δ) :=
  doPrintfLoop args func format 0 ⟨0, data⟩

/-! ### The pieces of a format -/

inductive Piece where
  | literal (c : Int8)
  | directive (d : Directive)
  /-- A `'%'` and what is left of a directive that the format ends in. -/
  | cut (s : List Int8)
  deriving DecidableEq, Repr

def Piece.text : Piece → List Int8
  | .literal c => [c]
  | .directive d => ch '%' :: d.text
  | .cut s => ch '%' :: s

/-- The format, without its NUL, in pieces. -/
def split (s : List Int8) : List Piece :=
  match s with
  | [] => []
  | c :: s =>
    if c = ch '%' then
      match _h : Directive.read s with
      | none => [.cut s]
      | some (d, rest) => .directive d :: split rest
    else .literal c :: split s
termination_by s.length
decreasing_by
  · exact Nat.lt_succ_of_lt (Directive.read_length _h)
  · exact Nat.lt_succ_self _

namespace Directive
variable (d : Directive)

/-- The flags `do_printf` works with. -/
def f : Nat := lengthFlags d.bits

def widthValue : Nat := decimal d.width
def precisionValue : Nat := decimal d.precisionDigits

/-- The conversions that take an argument. -/
def signed : List Int8 := ['d', 'i', 'c'].map ch
def unsigned : List Int8 := ['o', 'u', 'x', 'X'].map ch

def takes : Nat :=
  if d.conversion ∈ signed ++ unsigned ++ [ch 'p', ch 's'] then 1 else 0

/-- What the directive writes for an argument. -/
def emits (args : Args) (word : Nat) : Option (List Int) :=
  if d.conversion ∈ signed then
    intText (magnitude d.f word).1 (magnitude d.f word).2 d.widthValue d.precisionValue
  else if d.conversion ∈ unsigned then
    intText (uintArg d.f word) d.f d.widthValue d.precisionValue
  else if d.conversion = ch 'p' then intText (u64 word) d.f d.widthValue d.precisionValue
  else if d.conversion = ch 's' then
    stringText (args.string word) d.f d.widthValue d.precisionValue
  else if d.conversion = ch '%' then some [(ch '%').toInt]
  else some (formatError.map Int8.toInt)

end Directive

/-- What the pieces write, from the `ap`-th argument on. -/
def render (args : Args) : List Piece → Nat → Option (List Int)
  | [], _ => some []
  | .literal c :: ps, ap => (render args ps ap).map fun text => c.toInt :: text
  | .directive d :: ps, ap =>
    (d.emits args (args.word ap)).bind fun text =>
      (render args ps (ap + d.takes)).map fun rest => text ++ rest
  | .cut _ :: _, _ => some []

/-- Refused, the run ends with what there is; else it goes on. -/
def orEnd {α : Type} (e : Except α α) (next : α → Option α) : Option α :=
  match e with
  | .error a => some a
  | .ok a => next a

/-- The pieces put into a sink. A literal or a `%%` that is refused ends the run. -/
def runPieces (args : Args) (func : Sink δ) : List Piece → Nat → Out δ → Option (Out δ)
  | [], _, o => some o
  | .literal c :: ps, ap, o => orEnd (putChar func c.toInt o) (runPieces args func ps ap)
  | .directive d :: ps, ap, o =>
    if d.conversion = ch '%' then
      orEnd (putChar func (ch '%').toInt o) (runPieces args func ps ap)
    else
      (d.emits args (args.word ap)).bind fun text =>
        let r := settle (putAll func text ⟨0, o.data⟩)
        runPieces args func ps (ap + d.takes) ⟨int32 (o.n + r.n), r.data⟩
  | .cut _ :: _, _, o => some o

variable {args : Args} {func : Sink δ} {o o' : Out δ} {d : Directive} {s z : List Int8} {c : Int8}
  {ps : List Piece} {r i ap : Nat} {data : δ} {text text' : List Int}

theorem doConversion_eq {f : Nat} {width precision : Int} :
    doConversion args f width precision ap func data =
      (conversionText args f width precision ap).map fun r =>
        (r.1, settle (putAll func r.2 ⟨0, data⟩)) := by
  unfold doConversion conversionText
  split_ifs <;>
    simp only [doConversionInt_eq, doConversionString_eq, Option.map_map, Function.comp_def]

/-! ### The kind of a conversion -/

theorem has_below (hr : r < 2 ^ i) : has r (2 ^ i) = false := by
  rw [has, Nat.and_two_pow, Nat.testBit_lt_two_pow hr]
  simp

theorem has_low (hr : r < 2 ^ 14) (hi : 14 ≤ i) : has r (2 ^ i) = false :=
  has_below (Nat.lt_of_lt_of_le hr (Nat.pow_le_pow_right (by decide) hi))

theorem addFlag_lt (hi : 5 ≤ i) (hr : r < 2 ^ i) : addFlag r c < 2 ^ i := by
  have hflag : (flagOf c).getD 0 < 2 ^ 5 := by
    unfold flagOf
    split_ifs <;> decide
  exact Nat.or_lt_two_pow hr (Nat.lt_of_lt_of_le hflag (Nat.pow_le_pow_right (by decide) hi))

theorem addLength_lt (hr : r < 2 ^ 14) : addLength r c < 2 ^ 14 := by
  unfold addLength lengthOf
  split_ifs <;> first | exact hr | exact Nat.or_lt_two_pow hr (by decide)

theorem foldl_lt {step : Nat → Int8 → Nat} (h : ∀ r c, r < 2 ^ i → step r c < 2 ^ i)
    (hr : r < 2 ^ i) (cs : List Int8) : cs.foldl step r < 2 ^ i := by
  induction cs generalizing r with
  | nil => exact hr
  | cons c cs ih => exact ih (h r c hr)

theorem foldl_addFlag_lt (hi : 5 ≤ i) (cs : List Int8) : cs.foldl addFlag 0 < 2 ^ i :=
  foldl_lt (fun _ _ => addFlag_lt hi) (Nat.two_pow_pos i) cs

/-- Flags, width and precision are the 7 lowest bits. -/
theorem Directive.given_low : d.given < 2 ^ 7 := by
  have hflags : d.flags.foldl addFlag 0 < 2 ^ 7 := foldl_addFlag_lt (by decide) _
  unfold given
  split_ifs
  · exact hflags
  · exact Nat.or_lt_two_pow hflags (by decide)
  · exact Nat.or_lt_two_pow hflags (by decide)
  · exact Nat.or_lt_two_pow (Nat.or_lt_two_pow hflags (by decide)) (by decide)

/-- With the length modifiers they are the 14 lowest. -/
theorem Directive.given_lt : d.length.foldl addLength d.given < 2 ^ 14 :=
  foldl_lt (fun _ _ => addLength_lt) (Nat.lt_trans given_low (by decide)) _

theorem has_two_pow : has r (2 ^ i) = r.testBit i := by
  rw [has, Nat.and_two_pow]
  cases r.testBit i <;> simp

/-- The length modifiers stand for each other only. -/
theorem has_lengthFlags {f : Nat} (hi : i < 7 ∨ 14 ≤ i) :
    has (lengthFlags f) (2 ^ i) = has f (2 ^ i) := by
  have hor : ∀ b, has b (2 ^ i) = false → has (f ||| b) (2 ^ i) = has f (2 ^ i) := by
    intro b hb
    rw [has_or, hb, Bool.or_false]
  have hbit : has LENGTH_LONGLONG (2 ^ i) = false ∧ has LENGTH_LONG (2 ^ i) = false := by
    rcases hi with hi | hi
    · interval_cases i <;> decide
    · exact ⟨has_low (by decide) hi, has_low (by decide) hi⟩
  unfold lengthFlags
  split_ifs
  · exact hor _ hbit.1
  · exact hor _ hbit.2
  · exact hor _ hbit.2
  · rfl

theorem parseConversion_or : parseConversion c r = r ||| parseConversion c 0 := by
  unfold parseConversion
  simp only [apply_ite (r ||| ·), Nat.zero_or, Nat.or_zero, Nat.or_assoc]

/-- The conversion has no say on width, precision and length; of the flags `%p` sets one. -/
theorem has_parseConversion_mid (hi : 5 ≤ i) (hi' : i < 14) : has (parseConversion c 0) (2 ^ i) = false := by
  have hmask : parseConversion c 0 &&& (2 ^ 14 - 2 ^ 5) = 0 := by
    unfold parseConversion
    split_ifs <;> decide
  have hbit : (2 ^ 14 - 2 ^ 5).testBit i = true := by
    interval_cases i <;> decide
  have hand := congrArg (Nat.testBit · i) hmask
  rw [Nat.testBit_and, hbit, Bool.and_true, Nat.zero_testBit] at hand
  rw [has_two_pow, hand]

/-- Above the length modifiers the conversion alone decides. -/
theorem Directive.has_f (hi : 14 ≤ i) : has d.f (2 ^ i) = has (parseConversion d.conversion 0) (2 ^ i) := by
  rw [f, has_lengthFlags (Or.inr hi), bits, parseConversion_or, has_or, has_low given_lt hi,
    Bool.false_or]

namespace Directive

theorem has_int : has d.f CONVERSION_INT = has (parseConversion d.conversion 0) CONVERSION_INT :=
  has_f (i := 14) (by decide)

theorem has_uint : has d.f CONVERSION_UINT = has (parseConversion d.conversion 0) CONVERSION_UINT :=
  has_f (i := 16) (by decide)

theorem has_charp : has d.f CONVERSION_CHARP = has (parseConversion d.conversion 0) CONVERSION_CHARP :=
  has_f (i := 21) (by decide)

theorem has_voidp : has d.f CONVERSION_VOIDP = has (parseConversion d.conversion 0) CONVERSION_VOIDP :=
  has_f (i := 22) (by decide)

theorem has_none : has d.f CONVERSION_NONE = has (parseConversion d.conversion 0) CONVERSION_NONE :=
  has_f (i := 23) (by decide)

/-- `%%` has the highest of the conversion flags. -/
theorem parseConversion_lt (hne : c ≠ ch '%') : parseConversion c 0 < 2 ^ 23 := by
  unfold parseConversion
  rw [if_neg hne]
  split_ifs <;> decide

theorem f_ne_end : d.f ≠ END_STRING := by
  intro heq
  have hend : has d.f END_STRING = has (parseConversion d.conversion 0) END_STRING :=
    has_f (i := 24) (by decide)
  have hfalse : has (parseConversion d.conversion 0) END_STRING = false := by
    by_cases hc : d.conversion = ch '%'
    · rw [hc]
      decide
    · exact has_below (i := 24) (Nat.lt_trans (parseConversion_lt hc) (by decide))
  rw [hfalse, heq] at hend
  exact absurd hend (by decide)

theorem none_iff : has d.f CONVERSION_NONE = true ↔ d.conversion = ch '%' := by
  rw [has_none]
  constructor
  · intro h
    by_contra hne
    have hfalse : has (parseConversion d.conversion 0) CONVERSION_NONE = false :=
      has_below (i := 23) (parseConversion_lt hne)
    rw [hfalse] at h
    cases h
  · intro h
    rw [h]
    decide

theorem takes_percent (h : d.conversion = ch '%') : d.takes = 0 := by
  rw [takes, h]
  exact if_neg (by decide)

theorem emits_percent {word : Nat} (h : d.conversion = ch '%') :
    d.emits args word = some [(ch '%').toInt] := by
  rw [emits, h, if_neg (by decide), if_neg (by decide), if_neg (by decide), if_neg (by decide),
    if_pos rfl]

/-- A conversion that is none of the source's sets no flag. -/
theorem parseConversion_other (h : d.conversion ∉ signed ++ unsigned ++ [ch 'p', ch 's'])
    (hne : d.conversion ≠ ch '%') : parseConversion d.conversion 0 = 0 := by
  simp only [signed, unsigned, List.map_cons, List.map_nil, List.mem_append, List.mem_cons,
    List.not_mem_nil, or_false, not_or] at h
  unfold parseConversion
  simp only [h, hne, or_self, if_false]

/-- The conversion of `do_printf` writes what the directive does, and takes its arguments. -/
theorem conversionText_eq (hne : d.conversion ≠ ch '%') :
    conversionText args d.f d.widthValue d.precisionValue ap =
      (d.emits args (args.word ap)).map fun text => (d.takes, text) := by
  have htakes : d.conversion ∈ signed ++ unsigned ++ [ch 'p', ch 's'] → d.takes = 1 :=
    fun hm => if_pos hm
  by_cases hs : d.conversion ∈ signed
  · have hint : has d.f CONVERSION_INT = true := by
      rw [has_int]
      simp only [signed, List.map_cons, List.map_nil, List.mem_cons, List.not_mem_nil, or_false] at hs
      rcases hs with h | h | h <;> rw [h] <;> decide
    rw [conversionText, if_pos hint, emits, if_pos hs,
      htakes (List.mem_append_left _ (List.mem_append_left _ hs))]
  by_cases hu : d.conversion ∈ unsigned
  · have hkind : has d.f CONVERSION_INT = false ∧ has d.f CONVERSION_UINT = true := by
      rw [has_int, has_uint]
      simp only [unsigned, List.map_cons, List.map_nil, List.mem_cons, List.not_mem_nil, or_false] at hu
      rcases hu with h | h | h | h <;> rw [h] <;> decide
    rw [conversionText, hkind.1, if_neg Bool.false_ne_true, if_pos hkind.2, emits, if_neg hs, if_pos hu,
      htakes (List.mem_append_left _ (List.mem_append_right _ hu))]
  by_cases hp : d.conversion = ch 'p'
  · have hkind : has d.f CONVERSION_INT = false ∧ has d.f CONVERSION_UINT = false ∧
        has d.f CONVERSION_VOIDP = true := by
      rw [has_int, has_uint, has_voidp, hp]
      decide
    rw [conversionText, hkind.1, if_neg Bool.false_ne_true, hkind.2.1, if_neg Bool.false_ne_true,
      if_pos hkind.2.2, emits, if_neg hs, if_neg hu, if_pos hp,
      htakes (List.mem_append_right _ (by simp [hp]))]
  by_cases hc : d.conversion = ch 's'
  · have hkind : has d.f CONVERSION_INT = false ∧ has d.f CONVERSION_UINT = false ∧
        has d.f CONVERSION_VOIDP = false ∧ has d.f CONVERSION_CHARP = true := by
      rw [has_int, has_uint, has_voidp, has_charp, hc]
      decide
    rw [conversionText, hkind.1, if_neg Bool.false_ne_true, hkind.2.1, if_neg Bool.false_ne_true,
      hkind.2.2.1, if_neg Bool.false_ne_true, if_pos hkind.2.2.2, emits, if_neg hs, if_neg hu,
      if_neg hp, if_pos hc,
      htakes (List.mem_append_right _ (by simp [hc]))]
  · have hnone : d.conversion ∉ signed ++ unsigned ++ [ch 'p', ch 's'] := by
      simp [hs, hu, hp, hc]
    have hkinds := parseConversion_other hnone hne
    have hkind : has d.f CONVERSION_INT = false ∧ has d.f CONVERSION_UINT = false ∧
        has d.f CONVERSION_VOIDP = false ∧ has d.f CONVERSION_CHARP = false := by
      rw [has_int, has_uint, has_voidp, has_charp, hkinds]
      decide
    have herror : stringText (formatError ++ [0]) CONVERSION_CHARP 0 0 =
        some (formatError.map Int8.toInt) := by decide
    have hzero : d.takes = 0 := if_neg hnone
    rw [conversionText, hkind.1, if_neg Bool.false_ne_true, hkind.2.1, if_neg Bool.false_ne_true,
      hkind.2.2.1, if_neg Bool.false_ne_true, hkind.2.2.2, if_neg Bool.false_ne_true, emits,
      if_neg hs, if_neg hu, if_neg hp, if_neg hc, if_neg hne, herror, Option.map_some, Option.map_some,
      hzero]

end Directive

/-! ### The loop interprets the pieces -/

/-- Every digit run denotes a number an `int` can hold. -/
def Bounded (ps : List Piece) : Prop :=
  ∀ d, .directive d ∈ ps → d.widthValue < 2 ^ 31 ∧ d.precisionValue < 2 ^ 31

theorem Bounded.of_cons {q : Piece} (h : Bounded (q :: ps)) : Bounded ps :=
  fun d hd => h d (List.mem_cons_of_mem _ hd)

theorem split_literal (hc : c ≠ ch '%') : split (c :: s) = .literal c :: split s := by
  rw [split, if_neg hc]

theorem split_cut (hr : Directive.read s = none) : split (ch '%' :: s) = [.cut s] := by
  rw [split, if_pos rfl]
  split
  · rfl
  · rename_i hread
    rw [hr] at hread
    cases hread

theorem split_directive {rest : List Int8} (hr : Directive.read s = some (d, rest)) :
    split (ch '%' :: s) = .directive d :: split rest := by
  rw [split, if_pos rfl]
  split
  · rename_i hread
    rw [hr] at hread
    cases hread
  · rename_i hread
    rw [hr] at hread
    obtain ⟨rfl, rfl⟩ := Prod.mk.inj (Option.some.inj hread)
    rfl

/-- A directive is parsed as what its digits denote. -/
theorem Directive.parsed_eq {rest : List Int8} (h : d.Spelled)
    (hb : d.widthValue < 2 ^ 31 ∧ d.precisionValue < 2 ^ 31) :
    d.parsed rest = ⟨d.bits, d.widthValue, d.precisionValue, rest⟩ := by
  have hdigits : ∀ c ∈ d.precisionDigits, isDigit c := by
    intro c hc
    unfold precisionDigits at hc
    cases hp : d.precision with
    | none =>
      rw [hp] at hc
      cases hc
    | some digits =>
      rw [hp] at hc
      exact h.precision digits hp c hc
  rw [parsed, foldl_addDigit_zero h.width hb.1, foldl_addDigit_zero hdigits hb.2]
  rfl

/-- A `'%'` that the format ends behind. -/
theorem doPrintfLoop_cut (hs : 0 ∉ s) (hr : Directive.read s = none) :
    doPrintfLoop args func (ch '%' :: (s ++ 0 :: z)) ap o = some o := by
  have hparse := parseFormat_read (z := z) hs
  rw [hr] at hparse
  obtain ⟨q, hq, hend⟩ := hparse
  have hf : lengthFlags q.f = END_STRING := by
    rw [hend]
    decide
  rw [doPrintfLoop, if_neg (by decide), if_pos rfl, hq]
  exact if_pos hf

/-- A directive is one piece, whatever the pieces behind it are. -/
theorem doPrintfLoop_directive {rest : List Int8} (hs : 0 ∉ s)
    (hr : Directive.read s = some (d, rest)) (hb : d.widthValue < 2 ^ 31 ∧ d.precisionValue < 2 ^ 31)
    (hnext : ∀ ap o, doPrintfLoop args func (rest ++ 0 :: z) ap o = runPieces args func ps ap o) :
    doPrintfLoop args func (ch '%' :: (s ++ 0 :: z)) ap o =
      runPieces args func (.directive d :: ps) ap o := by
  have hparse := parseFormat_read (z := z) hs
  rw [hr] at hparse
  have hparse : parseFormat (s ++ 0 :: z) = some (d.parsed (rest ++ 0 :: z)) := hparse
  rw [Directive.parsed_eq (Directive.read_spelled hr) hb] at hparse
  rw [doPrintfLoop, if_neg (by decide), if_pos rfl, hparse, runPieces]
  refine (if_neg d.f_ne_end).trans ?_
  by_cases hp : d.conversion = ch '%'
  · refine (if_pos (Directive.none_iff.mpr hp)).trans ?_
    rw [if_pos hp]
    cases putChar func (ch '%').toInt o with
    | error o => rfl
    | ok o => exact hnext ap o
  · refine (if_neg (mt Directive.none_iff.mp hp)).trans ?_
    rw [if_neg hp]
    show Option.bind (doConversion args d.f d.widthValue d.precisionValue ap func o.data) _ = _
    rw [doConversion_eq, Directive.conversionText_eq hp]
    cases d.emits args (args.word ap) with
    | none => rfl
    | some text => exact hnext _ _

/-- `do_printf` up to the NUL is the interpreter of the pieces. -/
theorem doPrintfLoop_eq (h : 0 ∉ s) (hb : Bounded (split s)) :
    doPrintfLoop args func (s ++ 0 :: z) ap o = runPieces args func (split s) ap o := by
  induction hn : s.length using Nat.strongRecOn generalizing s ap o with
  | _ n ih =>
    cases s with
    | nil =>
      rw [List.nil_append, doPrintfLoop, if_pos rfl, split]
      rfl
    | cons c s =>
      obtain ⟨h0, hs⟩ := not_mem_cons h
      have hlt : s.length < n := by
        rw [← hn]
        exact Nat.lt_succ_self _
      by_cases hc : c = ch '%'
      · subst hc
        cases hr : Directive.read s with
        | none =>
          rw [split_cut hr]
          exact doPrintfLoop_cut hs hr
        | some pair =>
          obtain ⟨d, rest⟩ := pair
          rw [split_directive hr] at hb ⊢
          have hrest : 0 ∉ rest := fun hm => hs (by
            rw [Directive.read_text hr]
            exact List.mem_append_right _ hm)
          exact doPrintfLoop_directive hs hr (hb d (List.mem_cons_self ..)) fun ap o =>
            ih rest.length (Nat.lt_trans (Directive.read_length hr) hlt) hrest hb.of_cons rfl
      · rw [List.cons_append, doPrintfLoop, if_neg h0, if_neg hc, split_literal hc, runPieces]
        rw [split_literal hc] at hb
        cases putChar func c.toInt o with
        | error o => rfl
        | ok o => exact ih s.length hlt hs hb.of_cons rfl

end Kvi.Printf
