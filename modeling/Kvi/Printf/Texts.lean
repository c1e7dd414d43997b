import Kvi.Printf.Sinks

/-! Text conversions.

What C prescribes for `%s` and `%c` is a text padded with blanks on one side
(`Directive.prescribed`). `do_conversion_string` follows it; the character branch of
`do_conversion_int` pads nothing, and gets the magnitude of its argument, so that a
negative `char` comes out as another one (`text_conversions`).

A count is an `int`: a text of `2^31` bytes and more has none. -/
namespace Kvi.Printf

variable {args : Args} {d : Directive} {r i ap : Nat} {c : Int8} {str : List Int8} {text : List Int}

/-! ### What C prescribes -/

/-- `text` with blanks up to the width, on the right under `'-'`. -/
def padded (left : Bool) (width : Nat) (text : List Int8) : List Int8 :=
  if left then text ++ List.replicate (width - text.length) (ch ' ')
  else List.replicate (width - text.length) (ch ' ') ++ text

/-- The bytes of a string up to its NUL, as far as a precision allows. -/
def shown (precision : Option Nat) (str : List Int8) : List Int8 :=
  match precision with
  | none => str.takeWhile (· ≠ 0)
  | some p => (str.takeWhile (· ≠ 0)).take p

/-- There is a NUL, or as many bytes as the precision asks for. -/
def Readable (precision : Option Nat) (str : List Int8) : Prop :=
  0 ∈ str ∨ ∃ p, precision = some p ∧ p ≤ str.length

namespace Directive
variable (d)

def leftAdjusted : Bool := decide (ch '-' ∈ d.flags)

/-- What `%s` and `%c` write for an argument. -/
def prescribed (args : Args) (word : Nat) : List Int8 :=
  padded d.leftAdjusted d.widthValue <|
    if d.conversion = ch 's' then shown d.limit (args.string word) else [Int8.ofInt (intArg d.f word)]

end Directive

/-! ### The string routine -/

theorem shown_end (precision : Option Nat) : shown precision [] = [] := by
  cases precision with
  | none => rfl
  | some p => exact List.take_nil

theorem shown_nul (precision : Option Nat) : shown precision (0 :: str) = [] := by
  have hnone : (0 :: str).takeWhile (· ≠ 0) = [] := List.takeWhile_cons_of_neg (by simp)
  cases precision with
  | none => exact hnone
  | some p => rw [shown, hnone, List.take_nil]

/-- The scan stops at the NUL or at the precision, whichever comes first. -/
theorem scan_shown {f p n : Nat} (h : 0 ∈ str ∨ has f HAS_PRECISION = true ∧ p ≤ n + str.length) :
    scan f p str n = some (n +
      (shown (if has f HAS_PRECISION then some (p - n) else none) str).length) := by
  induction str generalizing n with
  | nil =>
    obtain ⟨hf, hle⟩ := h.resolve_left (List.not_mem_nil)
    have hlim : has f HAS_PRECISION = true ∧ (p : Int) ≤ n := ⟨hf, Int.ofNat_le.mpr hle⟩
    rw [scan, if_pos hlim, shown_end]
    rfl
  | cons c str ih =>
    rw [scan]
    by_cases hlim : has f HAS_PRECISION = true ∧ (p : Int) ≤ n
    · have hzero : p - n = 0 := Nat.sub_eq_zero_of_le (Int.ofNat_le.mp hlim.2)
      rw [if_pos hlim, if_pos hlim.1, hzero]
      rfl
    · rw [if_neg hlim]
      by_cases hc : c = 0
      · rw [if_pos hc, hc, shown_nul]
        rfl
      · have hrest : 0 ∈ str ∨ has f HAS_PRECISION = true ∧ p ≤ n + 1 + str.length := by
          refine h.imp (fun hm => (List.mem_cons.mp hm).resolve_left fun heq => hc heq.symm) ?_
          intro hp
          have hle := hp.2
          rw [List.length_cons] at hle
          exact ⟨hp.1, by omega⟩
        have hcons : (c :: str).takeWhile (· ≠ 0) = c :: str.takeWhile (· ≠ 0) :=
          List.takeWhile_cons_of_pos (by simp [hc])
        rw [if_neg hc, ih hrest]
        by_cases hf : has f HAS_PRECISION = true
        · have hpos : p - n = (p - (n + 1)) + 1 := by
            have hlt : ¬ (p : Int) ≤ n := fun hle => hlim ⟨hf, hle⟩
            omega
          rw [if_pos hf, if_pos hf, shown, shown, hcons, hpos, List.take_succ_cons, List.length_cons]
          congr 1
          omega
        · rw [if_neg hf, if_neg hf, shown, shown, hcons, List.length_cons]
          congr 1
          omega

/-- What is shown is a beginning of the string. -/
theorem take_shown (precision : Option Nat) :
    str.take (shown precision str).length = shown precision str := by
  have htake : ∀ s : List Int8, s <+: str → str.take s.length = s :=
    fun s hs => (List.prefix_iff_eq_take.mp hs).symm
  cases precision with
  | none => exact htake _ (List.takeWhile_prefix _)
  | some p => exact htake _ ((List.take_prefix ..).trans (List.takeWhile_prefix _))

theorem times_natCast {n : Nat} (hn : n < 2 ^ 32) (c : Int8) :
    times n c = (List.replicate n c).map Int8.toInt := by
  rw [times, List.map_replicate, ofInt32]
  congr 1
  omega

section
variable {f width : Nat} (hw : width < 2 ^ 31) (hgiven : has f HAS_WIDTH = false → width = 0)
include hw hgiven

/-- What is left of the width. -/
theorem space_eq {used : Nat} :
    (if has f HAS_WIDTH ∧ (width : Int) > used then int32 (width - used) else 0) =
      ((width - used : Nat) : Int) := by
  by_cases hwide : has f HAS_WIDTH = true ∧ (width : Int) > used
  · rw [if_pos hwide, int32_of_range (by omega) (by omega)]
    omega
  · rw [if_neg hwide]
    have hle : width ≤ used := by
      by_cases hf : has f HAS_WIDTH = true
      · have hlt : ¬ (width : Int) > used := fun hgt => hwide ⟨hf, hgt⟩
        omega
      · rw [hgiven (Bool.eq_false_iff.mpr hf)]
        exact Nat.zero_le _
    rw [Nat.sub_eq_zero_of_le hle]
    rfl

theorem stringText_padded {p : Nat} (h : 0 ∈ str ∨ has f HAS_PRECISION = true ∧ p ≤ str.length) :
    stringText str f width p = some ((padded (has f FLAG_LEFT_ADJUSTED) width
      (shown (if has f HAS_PRECISION then some p else none) str)).map Int8.toInt) := by
  have hscan := scan_shown (p := p) (n := 0) (h.imp_right fun hp => ⟨hp.1, by omega⟩)
  have hzero : times 0 (ch ' ') = [] := rfl
  rw [Nat.zero_add, Nat.sub_zero] at hscan
  rw [stringText, hscan, Option.bind_some, take_shown]
  dsimp only
  rw [space_eq hw hgiven]
  by_cases hleft : has f FLAG_LEFT_ADJUSTED = true
  · rw [if_pos hleft, if_pos hleft, hzero, times_natCast (by omega), padded, if_pos hleft, List.map_append,
      List.nil_append]
  · rw [if_neg hleft, if_neg hleft, hzero, times_natCast (by omega), padded, if_neg hleft, List.map_append,
      List.append_nil]

end

/-! ### The conversions -/

/-- A sink that keeps the characters as bytes. -/
def typed : Sink (List Int8) := fun c s => (0, s ++ [Int8.ofInt c])

theorem deliver_typed {s : List Int8} : deliver typed text s = s ++ text.map Int8.ofInt := by
  induction text generalizing s with
  | nil => exact (List.append_nil s).symm
  | cons c text ih =>
    rw [deliver, List.foldl_cons, ← deliver, ih, List.map_cons]
    exact (List.append_cons ..).symm

theorem putAll_typed :
    settle (putAll typed text ⟨0, []⟩) = ⟨int32 text.length, text.map Int8.ofInt⟩ := by
  have hnever : NeverFails typed := fun _ _ => le_rfl
  rw [hnever.putAll fits_start, deliver_typed, Int.zero_add, List.nil_append]

theorem doConversion_typed (hne : d.conversion ≠ ch '%') :
    doConversion args d.f d.widthValue d.precisionValue ap typed [] =
      (d.emits args (args.word ap)).map fun text =>
        (d.takes, ⟨int32 text.length, text.map Int8.ofInt⟩) := by
  rw [doConversion_eq, Directive.conversionText_eq hne, Option.map_map]
  congr 1
  funext text
  exact congrArg (Prod.mk d.takes) putAll_typed

theorem map_toInt_ofInt : (str.map Int8.toInt).map Int8.ofInt = str := by
  rw [List.map_map]
  exact (List.map_congr_left fun c _ => Int8.ofInt_toInt c).trans (List.map_id _)

theorem ofInt_eq_iff {x y : Int} : Int8.ofInt x = Int8.ofInt y ↔ x % 2 ^ 8 = y % 2 ^ 8 := by
  have hsize : Int8.size = 2 ^ 8 := rfl
  rw [← Int8.toInt_inj, Int8.toInt_ofInt, Int8.toInt_ofInt, hsize, Int.bmod_def, Int.bmod_def]
  omega

theorem s32_ofInt64_mod (x : Int) : s32 (ofInt64 x) % 2 ^ 8 = x % 2 ^ 8 := by
  unfold s32 u32 ofInt64
  split <;> omega

/-- The character branch hands over the magnitude of its argument. -/
theorem ofInt_magnitude {f word : Nat} :
    Int8.ofInt (s32 (magnitude f word).1) = Int8.ofInt (intArg f word) ↔
      0 ≤ intArg f word ∨ 2 ^ 7 ∣ intArg f word := by
  rw [ofInt_eq_iff]
  by_cases hneg : intArg f word < 0
  · rw [magnitude, if_pos hneg, s32_ofInt64_mod]
    omega
  · rw [magnitude, if_neg hneg, s32_ofInt64_mod]
    omega

/-- What the character branch writes. -/
theorem emits_char {word : Nat} (hc : d.conversion = ch 'c') :
    d.emits args word = some [s32 (magnitude d.f word).1] := by
  have hsigned : d.conversion ∈ Directive.signed := by
    rw [hc]
    decide
  have hchar : has d.f CONVERSION_CHARACTER = true := by
    have hkind : has d.f CONVERSION_CHARACTER = has (parseConversion d.conversion 0) CONVERSION_CHARACTER :=
      d.has_f (i := 20) (by decide)
    rw [hkind, hc]
    decide
  have hmag : has (magnitude d.f word).2 CONVERSION_CHARACTER = true := by
    have hor : ∀ b, has (d.f ||| b) CONVERSION_CHARACTER = true := by
      intro b
      rw [has_or, hchar, Bool.true_or]
    unfold magnitude
    split
    · exact hor _
    · exact hor _
  rw [Directive.emits, if_pos hsigned, intText, if_pos hmag]

theorem emits_string {word : Nat} (hc : d.conversion = ch 's') :
    d.emits args word = stringText (args.string word) d.f d.widthValue d.precisionValue := by
  rw [Directive.emits, hc, if_neg (by decide), if_neg (by decide), if_neg (by decide), if_pos rfl]

theorem padded_length {left : Bool} {width : Nat} {text : List Int8} :
    (padded left width text).length = max width text.length := by
  rw [padded]
  split <;> rw [List.length_append, List.length_replicate] <;> omega

theorem padded_narrow {left : Bool} {width : Nat} {text : List Int8} (h : width ≤ text.length) :
    padded left width text = text := by
  rw [padded, Nat.sub_eq_zero_of_le h]
  split
  · exact List.append_nil _
  · rfl

theorem int32_natCast {n : Nat} : int32 n = n ↔ n < 2 ^ 31 := by
  rw [int32_eq]
  omega

/-- `%c` writes what is prescribed where nothing is padded and the byte is that of the magnitude. -/
theorem char_writes (hc : d.conversion = ch 'c') :
    doConversion args d.f d.widthValue d.precisionValue ap typed [] =
        some (1, ⟨(d.prescribed args (args.word ap)).length, d.prescribed args (args.word ap)⟩) ↔
      d.widthValue ≤ 1 ∧ (0 ≤ intArg d.f (args.word ap) ∨ 2 ^ 7 ∣ intArg d.f (args.word ap)) := by
  have hne : d.conversion ≠ ch '%' := by
    rw [hc]
    decide
  have htakes : d.takes = 1 := by
    rw [Directive.takes, hc]
    rfl
  have hprescribed : d.prescribed args (args.word ap) =
      padded d.leftAdjusted d.widthValue [Int8.ofInt (intArg d.f (args.word ap))] := by
    rw [Directive.prescribed, hc]
    rfl
  have hone : int32 (([s32 (magnitude d.f (args.word ap)).1] : List Int).length : Nat) = 1 := by
    rw [List.length_singleton]
    decide
  rw [doConversion_typed hne, emits_char hc, htakes, Option.map_some, hone, hprescribed, padded_length,
    List.length_singleton, List.map_singleton]
  constructor
  · intro heq
    have hout := Prod.mk.inj (Option.some.inj heq)
    obtain ⟨hn, hdata⟩ := Out.mk.inj hout.2
    have hnarrow : d.widthValue ≤ 1 := by omega
    rw [padded_narrow hnarrow] at hdata
    exact ⟨hnarrow, ofInt_magnitude.mp (List.singleton_inj.mp hdata)⟩
  · intro h
    rw [padded_narrow h.1, ofInt_magnitude.mpr h.2, Nat.max_eq_right h.1]
    rfl

section
variable (hw : d.widthValue < 2 ^ 31)
include hw

/-- `%s` writes what is prescribed of every string that can be read. -/
theorem string_writes (hc : d.conversion = ch 's')
    (hread : Readable d.limit (args.string (args.word ap))) :
    doConversion args d.f d.widthValue d.precisionValue ap typed [] =
      some (1, ⟨int32 (d.prescribed args (args.word ap)).length, d.prescribed args (args.word ap)⟩) := by
  have hne : d.conversion ≠ ch '%' := by
    rw [hc]
    decide
  have htakes : d.takes = 1 := by
    rw [Directive.takes, hc]
    rfl
  have hgiven : has d.f HAS_WIDTH = false → d.widthValue = 0 := by
    intro h
    rw [Directive.has_f_width, decide_eq_false_iff_not, not_not] at h
    rw [Directive.widthValue, h]
    rfl
  have hlimit : (if has d.f HAS_PRECISION = true then some d.precisionValue else none) = d.limit := by
    rw [Directive.has_f_precision, Directive.limit]
    cases d.precision <;> rfl
  have hscan : 0 ∈ args.string (args.word ap) ∨ has d.f HAS_PRECISION = true ∧
      d.precisionValue ≤ (args.string (args.word ap)).length := by
    refine hread.imp_right ?_
    intro hp
    obtain ⟨p, hp, hle⟩ := hp
    rw [← hlimit] at hp
    by_cases hf : has d.f HAS_PRECISION = true
    · rw [if_pos hf] at hp
      rw [Option.some.inj hp]
      exact ⟨hf, hle⟩
    · rw [if_neg hf] at hp
      cases hp
  have hleft : has d.f FLAG_LEFT_ADJUSTED = d.leftAdjusted := by
    have hflag : has d.f FLAG_LEFT_ADJUSTED = true ↔ _ := Directive.has_f_flag (c := ch '-') (by decide)
    rw [Directive.leftAdjusted, Bool.eq_iff_iff, hflag, decide_eq_true_eq]
    exact or_iff_left fun h => absurd h.1 (by decide)
  rw [doConversion_typed hne, emits_string hc, stringText_padded hw hgiven hscan, hlimit, hleft, htakes,
    Option.map_some, map_toInt_ofInt, List.length_map, Directive.prescribed, if_pos hc]

/-- The text conversions write what is prescribed and return its length: `%s` always, `%c` as long
as nothing is padded and the argument is its own magnitude as a byte. -/
theorem text_conversions (hc : d.conversion = ch 's' ∨ d.conversion = ch 'c')
    (hread : d.conversion = ch 's' → Readable d.limit (args.string (args.word ap))) :
    doConversion args d.f d.widthValue d.precisionValue ap typed [] =
        some (1, ⟨(d.prescribed args (args.word ap)).length, d.prescribed args (args.word ap)⟩) ↔
      (d.prescribed args (args.word ap)).length < 2 ^ 31 ∧
        (d.conversion = ch 'c' → d.widthValue ≤ 1 ∧
          (0 ≤ intArg d.f (args.word ap) ∨ 2 ^ 7 ∣ intArg d.f (args.word ap))) := by
  rcases hc with hc | hc
  · have hnotc : d.conversion ≠ ch 'c' := by
      rw [hc]
      decide
    rw [string_writes hw hc (hread hc)]
    constructor
    · intro heq
      have hn := (Out.mk.inj (Prod.mk.inj (Option.some.inj heq)).2).1
      exact ⟨int32_natCast.mp hn, fun h => absurd h hnotc⟩
    · intro h
      rw [int32_natCast.mpr h.1]
  · have hlen : (d.prescribed args (args.word ap)).length < 2 ^ 31 := by
      have hbyte : d.prescribed args (args.word ap) =
          padded d.leftAdjusted d.widthValue [Int8.ofInt (intArg d.f (args.word ap))] := by
        rw [Directive.prescribed, hc]
        rfl
      rw [hbyte, padded_length, List.length_singleton]
      omega
    rw [char_writes hc]
    exact ⟨fun h => ⟨hlen, fun _ => h⟩, fun h => h.2 hc⟩

end

/-- `"%-3.2s"` of two bytes without a NUL. -/
theorem unterminated_padded :
    let d : Directive := ⟨[ch '-'], [ch '3'], some [ch '2'], [], ch 's'⟩
    let args : Args := ⟨fun _ => 1, fun _ => [ch 'a', ch 'b']⟩
    d.widthValue < 2 ^ 31 ∧ (d.conversion = ch 's' ∨ d.conversion = ch 'c') ∧
      (d.conversion = ch 's' → Readable d.limit (args.string (args.word 0))) ∧
      doConversion args d.f d.widthValue d.precisionValue 0 typed [] =
        some (1, ⟨3, [ch 'a', ch 'b', ch ' ']⟩) := by
  intro d args
  have hw : d.widthValue < 2 ^ 31 := by decide
  have hc : d.conversion = ch 's' ∨ d.conversion = ch 'c' := Or.inl rfl
  have hread : d.conversion = ch 's' → Readable d.limit (args.string (args.word 0)) :=
    fun _ => Or.inr ⟨2, by decide, by decide⟩
  exact ⟨hw, hc, hread, (text_conversions hw hc hread).mpr ⟨by decide, fun h => absurd h (by decide)⟩⟩

/-- `"%5c"` comes out as one character. -/
theorem char_not_padded :
    let d : Directive := ⟨[], [ch '5'], none, [], ch 'c'⟩
    let args : Args := ⟨fun _ => 65, fun _ => []⟩
    doConversion args d.f d.widthValue d.precisionValue 0 typed [] ≠
      some (1, ⟨(d.prescribed args (args.word 0)).length, d.prescribed args (args.word 0)⟩) := by
  intro d args heq
  rw [doConversion_typed (by decide), emits_char rfl] at heq
  have hn := (Out.mk.inj (Prod.mk.inj (Option.some.inj heq)).2).1
  exact absurd hn (by decide)

end Kvi.Printf
