import Kvi.Printf.Output

/-! What the sink sees.

A conversion counts its own characters, and `do_printf` adds that up in an `int`:
so far as the counts go, it is as if every character were put by the loop itself
(`Out.plus`). A sink that fails for good, if it fails (`Sticky`), then gets the text
of the whole run up to the first refusal (`doPrintf_sticky`), whatever the place of
the refusal: in a literal, where the loop stops, or in a conversion, where it
carries on. What that text is a sink that records every character tells.

`printf_interprets` is what `do_printf` does with a format. -/
namespace Kvi.Printf

variable {δ : Type} {func : Sink δ} {o o' : Out δ} {c : Int} {m : Int} {text text' : List Int}
  {args : Args} {ps : List Piece} {ap : Nat} {data : δ}

/-! ### The count -/

/-- The count is one an `int` can hold. -/
def Fits (o : Out δ) : Prop := int32 o.n = o.n

/-- `m` more characters. -/
def Out.plus (m : Int) (o : Out δ) : Out δ := ⟨int32 (m + o.n), o.data⟩

theorem int32_int32 (i : Int) : int32 (int32 i) = int32 i := by
  rw [int32_eq, int32_eq]
  omega

theorem int32_add (i j : Int) : int32 (int32 i + j) = int32 (i + j) := by
  rw [int32_eq, int32_eq, int32_eq]
  omega

theorem fits_start : Fits (⟨0, data⟩ : Out δ) := by
  show int32 0 = 0
  decide

theorem putAll_cons_ok (h : putChar func c o = .ok o') :
    putAll func (c :: text) o = putAll func text o' := by
  rw [putAll, h]
  rfl

theorem putAll_cons_error (h : putChar func c o = .error o') : putAll func (c :: text) o = .error o' := by
  rw [putAll, h]
  rfl

theorem fits_putAll (h : Fits o) : Fits (settle (putAll func text o)) := by
  induction text generalizing o with
  | nil => exact h
  | cons c text ih =>
    by_cases hr : (func c o.data).1 < 0
    · rw [putAll_cons_error (if_pos hr)]
      exact h
    · rw [putAll_cons_ok (if_neg hr)]
      exact ih (int32_int32 _)

/-- Characters counted before count afterwards too. -/
theorem settle_plus :
    settle (putAll func text (o.plus m)) = (settle (putAll func text o)).plus m := by
  induction text generalizing o with
  | nil => rfl
  | cons c text ih =>
    by_cases hr : (func c o.data).1 < 0
    · have hr' : (func c (o.plus m).data).1 < 0 := hr
      rw [putAll_cons_error (if_pos hr'), putAll_cons_error (if_pos hr)]
      rfl
    · have hr' : ¬ (func c (o.plus m).data).1 < 0 := hr
      have hnext : (⟨int32 ((o.plus m).n + 1), (func c o.data).2⟩ : Out δ) =
          Out.plus m ⟨int32 (o.n + 1), (func c o.data).2⟩ := by
        refine congrArg (fun n => (⟨n, _⟩ : Out δ)) ?_
        show int32 (int32 (m + o.n) + 1) = int32 (m + int32 (o.n + 1))
        rw [int32_eq, int32_eq, int32_eq, int32_eq]
        omega
      rw [putAll_cons_ok (if_neg hr'), putAll_cons_ok (if_neg hr), ← ih, ← hnext]
      rfl

/-- A conversion's own count, added, is the count of the loop. -/
theorem conversion_eq (h : Fits o) :
    (⟨int32 (o.n + (settle (putAll func text ⟨0, o.data⟩)).n),
      (settle (putAll func text ⟨0, o.data⟩)).data⟩ : Out δ) = settle (putAll func text o) := by
  have hstart : Out.plus o.n ⟨0, o.data⟩ = o := by
    have hn : int32 (o.n + 0) = o.n := by
      rw [Int.add_zero]
      exact h
    show (⟨int32 (o.n + 0), o.data⟩ : Out δ) = o
    rw [hn]
  have hplus : settle (putAll func text (Out.plus o.n ⟨0, o.data⟩)) = _ := settle_plus
  rw [hstart] at hplus
  exact hplus.symm

/-! ### Sinks that fail for good -/

/-- A sink that refuses has not changed, and refuses everything from then on. -/
def Sticky (func : Sink δ) : Prop :=
  ∀ c d, (func c d).1 < 0 → (func c d).2 = d ∧ ∀ c', (func c' d).1 < 0

theorem Sticky.putChar_stuck (h : Sticky func) (hr : (func c o.data).1 < 0) (c' : Int) :
    putChar func c' o = .error o := by
  have hr' := (h c o.data hr).2 c'
  rw [putChar, if_pos hr', (h c' o.data hr').1]

theorem Sticky.stuck (h : Sticky func) (he : putAll func text o = .error o') (c' : Int) :
    putChar func c' o' = .error o' := by
  induction text generalizing o with
  | nil => cases he
  | cons c text ih =>
    by_cases hr : (func c o.data).1 < 0
    · have hsame := h.putChar_stuck hr c
      rw [putAll_cons_error hsame] at he
      obtain rfl : o = o' := Except.error.inj he
      exact h.putChar_stuck hr c'
    · rw [putAll_cons_ok (if_neg hr)] at he
      exact ih he

/-- Going on after a refusal is as good as stopping. -/
theorem Sticky.settle_append (h : Sticky func) :
    settle (putAll func text' (settle (putAll func text o))) = settle (putAll func (text ++ text') o) := by
  rw [putAll_append]
  dsimp only
  cases he : putAll func text o with
  | ok o' => rfl
  | error o' =>
    cases text' with
    | nil => rfl
    | cons c cs =>
      show settle (putAll func (c :: cs) o') = o'
      rw [putAll_cons_error (h.stuck he c)]
      rfl

/-! ### The text of a run -/

/-- A sink that keeps every character. -/
def record : Sink (List Int) := fun c text => (0, text ++ [c])

theorem putChar_record (c : Int) (o : Out (List Int)) :
    putChar record c o = .ok ⟨int32 (o.n + 1), o.data ++ [c]⟩ :=
  if_neg (Int.lt_irrefl 0)

theorem putAll_record (o : Out (List Int)) : (settle (putAll record text o)).data = o.data ++ text := by
  induction text generalizing o with
  | nil => exact (List.append_nil _).symm
  | cons c text ih =>
    rw [putAll_cons_ok (putChar_record c o), ih]
    exact List.append_cons .. |>.symm

/-- Between `before` and `after` a text was recorded, and `run` puts that text into every sink that
fails for good. -/
def Spreads (run : ∀ δ : Type, Sink δ → Out δ → Option (Out δ)) (before after : List Int) : Prop :=
  ∃ text, after = before ++ text ∧ ∀ (δ : Type) (func : Sink δ) (o : Out δ), Sticky func → Fits o →
    run δ func o = some (settle (putAll func text o))

namespace Spreads
variable {run next : ∀ δ : Type, Sink δ → Out δ → Option (Out δ)} {before after : List Int}

theorem stop (hrun : ∀ (δ : Type) (func : Sink δ) (o : Out δ), run δ func o = some o) :
    Spreads run before before :=
  ⟨[], (List.append_nil _).symm, fun δ func o _ _ => hrun δ func o⟩

theorem put (h : Spreads next (before ++ [c]) after)
    (hrun : ∀ (δ : Type) (func : Sink δ) (o : Out δ), run δ func o =
      match putChar func c o with
      | .error o => some o
      | .ok o => next δ func o) : Spreads run before after := by
  obtain ⟨text, hdata, hrest⟩ := h
  refine ⟨c :: text, by rw [hdata, List.append_cons before c text], fun δ func o hs ho => ?_⟩
  rw [hrun]
  by_cases hr : (func c o.data).1 < 0
  · rw [putAll_cons_error (if_pos hr), show putChar func c o = .error _ from if_pos hr]
    rfl
  · rw [putAll_cons_ok (if_neg hr), show putChar func c o = .ok _ from if_neg hr]
    exact hrest δ func _ hs (int32_int32 _)

/-- A conversion puts its own text, and its count is added. -/
theorem convert (h : Spreads next (before ++ text) after)
    (hrun : ∀ (δ : Type) (func : Sink δ) (o : Out δ), run δ func o = next δ func
      ⟨int32 (o.n + (settle (putAll func text ⟨0, o.data⟩)).n),
        (settle (putAll func text ⟨0, o.data⟩)).data⟩) : Spreads run before after := by
  obtain ⟨text', hdata, hrest⟩ := h
  refine ⟨text ++ text', by rw [hdata, List.append_assoc], fun δ func o hs ho => ?_⟩
  rw [hrun, conversion_eq ho, hrest δ func _ hs (fits_putAll ho), hs.settle_append]

end Spreads

/-- A run that records `text` puts `text` into any sink that fails for good. -/
theorem doPrintfLoop_sticky {format : List Int8} {r r' : Out (List Int)}
    (hrun : doPrintfLoop args record format ap r = some r') :
    Spreads (fun _ func o => doPrintfLoop args func format ap o) r.data r'.data := by
  refine Out.doPrintfLoop.partial_correctness args record
    (fun format ap r r' => Spreads (fun _ func o => doPrintfLoop args func format ap o) r.data r'.data)
    ?_ format ap r r' hrun
  intro loop ih format ap r r' hstep
  cases format with
  | nil => cases hstep
  | cons c format =>
    dsimp only at hstep
    by_cases h0 : c = 0
    · rw [if_pos h0] at hstep
      rw [← Option.some.inj hstep]
      exact .stop fun δ func o => by rw [doPrintfLoop, if_pos h0]
    rw [if_neg h0] at hstep
    by_cases hc : c = ch '%'
    · rw [if_pos hc] at hstep
      obtain ⟨q, hq, hstep⟩ := Option.bind_eq_some_iff.mp hstep
      have hloop : ∀ (δ : Type) (func : Sink δ) (o : Out δ), doPrintfLoop args func (c :: format) ap o =
          if lengthFlags q.f = END_STRING then some o
          else if has (lengthFlags q.f) CONVERSION_NONE then
            match putChar func (ch '%').toInt o with
            | .error o => some o
            | .ok o => doPrintfLoop args func q.format ap o
          else (doConversion args (lengthFlags q.f) q.width q.precision ap func o.data).bind fun r =>
            doPrintfLoop args func q.format (ap + r.1) ⟨int32 (o.n + r.2.n), r.2.data⟩ := by
        intro δ func o
        rw [doPrintfLoop, if_neg h0, if_pos hc, hq]
        rfl
      by_cases hend : lengthFlags q.f = END_STRING
      · rw [if_pos hend] at hstep
        rw [← Option.some.inj hstep]
        exact .stop fun δ func o => by rw [hloop, if_pos hend]
      rw [if_neg hend] at hstep
      by_cases hnone : has (lengthFlags q.f) CONVERSION_NONE = true
      · rw [if_pos hnone, putChar_record] at hstep
        exact (ih _ _ _ _ hstep).put fun δ func o => by rw [hloop, if_neg hend, if_pos hnone]
      · rw [if_neg hnone] at hstep
        obtain ⟨⟨taken, r₁⟩, hconv, hstep⟩ := Option.bind_eq_some_iff.mp hstep
        rw [doConversion_eq] at hconv
        obtain ⟨⟨taken', text⟩, htext, heq⟩ := Option.map_eq_some_iff.mp hconv
        obtain ⟨rfl, rfl⟩ := Prod.mk.inj heq
        have hnext := ih _ _ _ _ hstep
        dsimp only at hnext
        rw [putAll_record] at hnext
        refine hnext.convert fun δ func o => ?_
        rw [hloop, if_neg hend, if_neg hnone, doConversion_eq, htext, Option.map_some, Option.bind_some]
    · rw [if_neg hc, putChar_record] at hstep
      refine (ih _ _ _ _ hstep).put fun δ func o => ?_
      rw [doPrintfLoop, if_neg h0]
      exact if_neg hc

/-- Bounded and unbounded sinks get the same text, up to the first refusal. -/
theorem doPrintf_sticky {format : List Int8} {r : Out (List Int)} (hs : Sticky func) (data : δ)
    (hrun : doPrintf args record format [] = some r) :
    doPrintf args func format data = some (settle (putAll func r.data ⟨0, data⟩)) := by
  obtain ⟨text, hdata, hrest⟩ := doPrintfLoop_sticky hrun
  obtain rfl : r.data = text := hdata
  exact hrest δ func ⟨0, data⟩ hs fits_start

/-! ### Sinks that never fail -/

def NeverFails (func : Sink δ) : Prop := ∀ c d, 0 ≤ (func c d).1

/-- The data of the sink after a text. -/
def deliver (func : Sink δ) (text : List Int) (data : δ) : δ :=
  text.foldl (fun d c => (func c d).2) data

theorem NeverFails.sticky (h : NeverFails func) : Sticky func :=
  fun c d hr => absurd (h c d) (Int.not_le.mpr hr)

theorem NeverFails.putAll (h : NeverFails func) (ho : Fits o) :
    settle (Printf.putAll func text o) = ⟨int32 (o.n + text.length), deliver func text o.data⟩ := by
  induction text generalizing o with
  | nil =>
    have hn : int32 (o.n + 0) = o.n := by
      rw [Int.add_zero]
      exact ho
    show o = ⟨int32 (o.n + 0), o.data⟩
    rw [hn]
  | cons c text ih =>
    have hok : putChar func c o = .ok ⟨int32 (o.n + 1), (func c o.data).2⟩ :=
      if_neg (Int.not_lt.mpr (h c o.data))
    have hfits : Fits (⟨int32 (o.n + 1), (func c o.data).2⟩ : Out δ) := int32_int32 _
    rw [putAll_cons_ok hok, ih hfits, List.length_cons]
    have hn : int32 (int32 (o.n + 1) + text.length) = int32 (o.n + ((text.length + 1 : Nat) : Int)) := by
      rw [int32_add]
      congr 1
      omega
    rw [hn]
    rfl

/-- The text of a run is what its pieces render to. -/
theorem runPieces_record (h : render args ps ap = some text) (o : Out (List Int)) :
    ∃ r, runPieces args record ps ap o = some r ∧ r.data = o.data ++ text := by
  induction ps generalizing ap o text with
  | nil =>
    obtain rfl := Option.some.inj h
    exact ⟨o, rfl, (List.append_nil _).symm⟩
  | cons q ps ih =>
    cases q with
    | literal c =>
      obtain ⟨rest, hrest, rfl⟩ := Option.map_eq_some_iff.mp h
      obtain ⟨r, hr, hdata⟩ := ih hrest ⟨int32 (o.n + 1), o.data ++ [c.toInt]⟩
      refine ⟨r, ?_, by rw [hdata, ← List.append_cons]⟩
      rw [runPieces, putChar_record]
      exact hr
    | directive d =>
      obtain ⟨text₁, htext, hmap⟩ := Option.bind_eq_some_iff.mp h
      obtain ⟨rest, hrest, rfl⟩ := Option.map_eq_some_iff.mp hmap
      rw [runPieces]
      by_cases hp : d.conversion = ch '%'
      · rw [Directive.takes_percent hp] at hrest
        rw [Directive.emits_percent hp] at htext
        obtain rfl := Option.some.inj htext
        obtain ⟨r, hr, hdata⟩ := ih hrest ⟨int32 (o.n + 1), o.data ++ [(ch '%').toInt]⟩
        refine ⟨r, ?_, by rw [hdata, List.append_assoc]⟩
        rw [if_pos hp, putChar_record]
        exact hr
      · rw [if_neg hp, htext, Option.bind_some]
        dsimp only
        obtain ⟨r, hr, hdata⟩ := ih hrest _
        exact ⟨r, hr, by rw [hdata, putAll_record, List.append_assoc]⟩
    | cut s =>
      obtain rfl := Option.some.inj h
      exact ⟨o, rfl, (List.append_nil _).symm⟩

/-! ### Counting -/

/-- The sink together with a count of what it accepted. -/
def counting (func : Sink δ) : Sink (δ × Nat) := fun c d =>
  ((func c d.1).1, (func c d.1).2, if (func c d.1).1 < 0 then d.2 else d.2 + 1)

def forget (o : Out (δ × Nat)) : Out δ := ⟨o.n, o.data.1⟩

/-- The count of the program is the count of the sink, as an `int`. -/
def Counts (o : Out (δ × Nat)) : Prop := o.n = int32 o.data.2

theorem Counts.fits {o : Out (δ × Nat)} (h : Counts o) : Fits o := by
  unfold Fits
  rw [h, int32_int32]

section
variable {o : Out (δ × Nat)}

theorem counting_error (hr : (func c o.data.1).1 < 0) :
    putChar (counting func) c o = .error ⟨o.n, (func c o.data.1).2, o.data.2⟩ ∧
      putChar func c (forget o) = .error ⟨o.n, (func c o.data.1).2⟩ := by
  refine ⟨(if_pos hr).trans ?_, if_pos hr⟩
  rw [counting, if_pos hr]

theorem counting_ok (hr : ¬ (func c o.data.1).1 < 0) :
    putChar (counting func) c o = .ok ⟨int32 (o.n + 1), (func c o.data.1).2, o.data.2 + 1⟩ ∧
      putChar func c (forget o) = .ok ⟨int32 (o.n + 1), (func c o.data.1).2⟩ := by
  refine ⟨(if_neg hr).trans ?_, if_neg hr⟩
  rw [counting, if_neg hr]

theorem Counts.succ {d : δ} (h : Counts o) : Counts ⟨int32 (o.n + 1), d, o.data.2 + 1⟩ := by
  show int32 (o.n + 1) = int32 ((o.data.2 + 1 : Nat) : Int)
  rw [h, int32_add]
  rfl

theorem putAll_counting (h : Counts o) :
    settle (putAll func text (forget o)) = forget (settle (putAll (counting func) text o)) ∧
      Counts (settle (putAll (counting func) text o)) := by
  induction text generalizing o with
  | nil => exact ⟨rfl, h⟩
  | cons c text ih =>
    by_cases hr : (func c o.data.1).1 < 0
    · obtain ⟨h₁, h₂⟩ := counting_error hr
      rw [putAll_cons_error h₁, putAll_cons_error h₂]
      exact ⟨rfl, h⟩
    · obtain ⟨h₁, h₂⟩ := counting_ok hr
      rw [putAll_cons_ok h₁, putAll_cons_ok h₂]
      exact ih h.succ

end

/-- A literal or a `%%`: the run stops, or goes on with one more. -/
theorem putChar_counting (func : Sink δ) (c : Int) {o : Out (δ × Nat)} {next : Out (δ × Nat) → Option (Out (δ × Nat))}
    {next' : Out δ → Option (Out δ)} (ho : Counts o)
    (ih : ∀ o, Counts o → ∃ r, next o = some r ∧ next' (forget o) = some (forget r) ∧ Counts r) :
    ∃ r, orEnd (putChar (counting func) c o) next = some r ∧
      orEnd (putChar func c (forget o)) next' = some (forget r) ∧ Counts r := by
  by_cases hr : (func c o.data.1).1 < 0
  · obtain ⟨h₁, h₂⟩ := counting_error hr
    rw [h₁, h₂]
    exact ⟨_, rfl, rfl, ho⟩
  · obtain ⟨h₁, h₂⟩ := counting_ok hr
    rw [h₁, h₂]
    exact ih _ ho.succ

/-- Whatever the sink refuses, the run ends with the count of what it accepted. -/
theorem runPieces_counting (h : render args ps ap = some text) {o : Out (δ × Nat)} (ho : Counts o) :
    ∃ r, runPieces args (counting func) ps ap o = some r ∧
      runPieces args func ps ap (forget o) = some (forget r) ∧ Counts r := by
  induction ps generalizing ap o text with
  | nil => exact ⟨o, rfl, rfl, ho⟩
  | cons q ps ih =>
    cases q with
    | literal c =>
      obtain ⟨rest, hrest, _⟩ := Option.map_eq_some_iff.mp h
      rw [runPieces, runPieces]
      exact putChar_counting func c.toInt ho fun o ho => ih hrest ho
    | directive d =>
      obtain ⟨text₁, htext, hmap⟩ := Option.bind_eq_some_iff.mp h
      obtain ⟨rest, hrest, _⟩ := Option.map_eq_some_iff.mp hmap
      rw [runPieces, runPieces]
      by_cases hp : d.conversion = ch '%'
      · rw [Directive.takes_percent hp, Nat.add_zero] at hrest
        rw [if_pos hp, if_pos hp]
        exact putChar_counting func _ ho fun o ho => ih hrest ho
      · rw [if_neg hp, if_neg hp, htext, Option.bind_some, Option.bind_some]
        have hput : settle (putAll func text₁ (forget o)) = _ ∧ _ := putAll_counting ho
        obtain ⟨hforget, hcounts⟩ := hput
        have hfits : Fits (forget o) := ho.fits
        obtain ⟨r, h₁, h₂, h₃⟩ := ih hrest hcounts
        refine ⟨r, ?_, ?_, h₃⟩
        · rw [← h₁, ← conversion_eq ho.fits]
        · rw [← h₂, ← hforget, ← conversion_eq hfits]
    | cut s => exact ⟨o, rfl, rfl, ho⟩

/-! ### What the flags of a directive say -/

namespace Directive
variable {d : Directive} {i : Nat}

theorem has_f_flag {c : Int8} {flag : Nat} (h : (c, flag) ∈ flagBits) : has d.f flag = true ↔
    c ∈ d.flags ∨ c = ch '#' ∧ d.conversion = ch 'p' := by
  have hsame : has d.f flag = has d.bits flag := by
    simp only [flagBits, List.mem_cons, List.not_mem_nil, or_false, Prod.mk.injEq] at h
    rcases h with ⟨_, rfl⟩ | ⟨_, rfl⟩ | ⟨_, rfl⟩ | ⟨_, rfl⟩ | ⟨_, rfl⟩
    · exact has_lengthFlags (i := 0) (Or.inl (by decide))
    · exact has_lengthFlags (i := 1) (Or.inl (by decide))
    · exact has_lengthFlags (i := 2) (Or.inl (by decide))
    · exact has_lengthFlags (i := 3) (Or.inl (by decide))
    · exact has_lengthFlags (i := 4) (Or.inl (by decide))
  rw [hsame]
  exact has_bits h

/-- Width and precision stand between the flags and the length modifiers. -/
theorem has_f_given (hi : 5 ≤ i) (hi' : i < 7) : has d.f (2 ^ i) = has d.given (2 ^ i) := by
  have hconversion : has (parseConversion d.conversion 0) (2 ^ i) = false :=
    has_parseConversion_mid hi (by omega)
  have hlength : ∀ r x, has (addLength r x) (2 ^ i) = has r (2 ^ i) := by
    intro r x
    have hor : ∀ b, has b (2 ^ i) = false → has (r ||| b) (2 ^ i) = has r (2 ^ i) := by
      intro b hb
      rw [has_or, hb, Bool.or_false]
    unfold addLength lengthOf
    split_ifs <;> first
      | rfl
      | exact hor _ (by interval_cases i <;> decide)
  have hfold : ∀ (cs : List Int8) r, has (cs.foldl addLength r) (2 ^ i) = has r (2 ^ i) := by
    intro cs
    induction cs with
    | nil => exact fun r => rfl
    | cons x cs ih =>
      intro r
      rw [List.foldl_cons, ih, hlength]
  rw [f, has_lengthFlags (Or.inl hi'), bits, parseConversion_or, has_or, hconversion, Bool.or_false, hfold]

theorem has_f_width : has d.f HAS_WIDTH = decide (d.width ≠ []) := by
  have hflags : has (d.flags.foldl addFlag 0) HAS_WIDTH = false :=
    has_below (i := 5) (foldl_addFlag_lt le_rfl _)
  have hself : has HAS_WIDTH HAS_WIDTH = true ∧ has HAS_PRECISION HAS_WIDTH = false := by decide
  have hgiven : has d.f HAS_WIDTH = has d.given HAS_WIDTH := has_f_given (i := 5) le_rfl (by decide)
  rw [hgiven, given]
  by_cases hw : d.width = [] <;> by_cases hp : d.precision = none <;>
    simp [hw, hp, has_or, hflags, hself]

theorem has_f_precision : has d.f HAS_PRECISION = d.precision.isSome := by
  have hflags : has (d.flags.foldl addFlag 0) HAS_PRECISION = false :=
    has_below (i := 6) (foldl_addFlag_lt (by decide) _)
  have hself : has HAS_PRECISION HAS_PRECISION = true ∧ has HAS_WIDTH HAS_PRECISION = false := by decide
  have hgiven : has d.f HAS_PRECISION = has d.given HAS_PRECISION :=
    has_f_given (i := 6) (by decide) (by decide)
  rw [hgiven, given]
  by_cases hw : d.width = [] <;> cases hp : d.precision <;>
    simp [hw, has_or, hflags, hself]

end Directive

/-! ### The whole call -/

/-- The precision, if there is one. -/
def Directive.limit (d : Directive) : Option Nat := d.precision.map fun _ => d.precisionValue

/-- Each `%s` is given a string of fewer than `2^31` bytes, or as many bytes as its precision asks for. -/
def Terminated (args : Args) : List Piece → Nat → Prop
  | [], _ => True
  | .directive d :: ps, ap =>
    (d.conversion = ch 's' → (∃ len < 2 ^ 31, (args.string (args.word ap))[len]? = some 0) ∨
        ∃ p, d.limit = some p ∧ p ≤ (args.string (args.word ap)).length) ∧
      Terminated args ps (ap + d.takes)
  | .literal _ :: ps, ap | .cut _ :: ps, ap => Terminated args ps ap

theorem ofInt64_lt (i : Int) : ofInt64 i < 2 ^ 64 := by
  unfold ofInt64
  omega

theorem magnitude_lt {f word : Nat} : (magnitude f word).1 < 2 ^ 64 := by
  unfold magnitude
  split_ifs
  · exact ofInt64_lt _
  · exact ofInt64_lt _

theorem uintArg_lt {f word : Nat} : uintArg f word < 2 ^ 64 := by
  unfold uintArg u32 u64
  split_ifs <;> omega

theorem Directive.emits_some {d : Directive} {word : Nat}
    (h : d.conversion = ch 's' → (∃ len < 2 ^ 31, (args.string word)[len]? = some 0) ∨
      ∃ p, d.limit = some p ∧ p ≤ (args.string word).length) :
    ∃ text, d.emits args word = some text := by
  unfold emits
  split_ifs with hs hu hp hstr hpct
  · exact intText_some magnitude_lt
  · exact intText_some uintArg_lt
  · exact intText_some (Nat.mod_lt _ (by decide))
  · refine stringText_some ((h hstr).imp ?_ ?_)
    · intro ⟨len, _, hlen⟩
      exact List.mem_of_getElem? hlen
    · intro ⟨p, hp, hle⟩
      rw [Directive.has_f_precision]
      obtain ⟨ds, hds, rfl⟩ := Option.map_eq_some_iff.mp hp
      exact ⟨by rw [hds]; rfl, Int.ofNat_le.mpr hle⟩
  · exact ⟨_, rfl⟩
  · exact ⟨_, rfl⟩

theorem render_some (h : Terminated args ps ap) : ∃ text, render args ps ap = some text := by
  induction ps generalizing ap with
  | nil => exact ⟨[], rfl⟩
  | cons q ps ih =>
    cases q with
    | literal c =>
      obtain ⟨text, htext⟩ := ih h
      exact ⟨c.toInt :: text, by rw [render, htext, Option.map_some]⟩
    | directive d =>
      obtain ⟨text, htext⟩ := Directive.emits_some h.1
      obtain ⟨rest, hrest⟩ := ih h.2
      exact ⟨text ++ rest, by rw [render, htext, Option.bind_some, hrest, Option.map_some]⟩
    | cut s => exact ⟨[], rfl⟩

theorem split_text (s : List Int8) : (split s).flatMap Piece.text = s := by
  induction hn : s.length using Nat.strongRecOn generalizing s with
  | _ n ih =>
    cases s with
    | nil =>
      rw [split]
      rfl
    | cons c s =>
      by_cases hc : c = ch '%'
      · subst hc
        cases hr : Directive.read s with
        | none =>
          rw [split_cut hr]
          simp [Piece.text]
        | some pair =>
          obtain ⟨d, rest⟩ := pair
          have hlt : rest.length < n := by
            rw [← hn]
            exact Nat.lt_succ_of_lt (Directive.read_length hr)
          rw [split_directive hr, List.flatMap_cons, ih _ hlt rest rfl, Piece.text, List.cons_append,
            ← Directive.read_text hr]
      · rw [split_literal hc, List.flatMap_cons, ih s.length (by rw [← hn]; exact Nat.lt_succ_self _) s rfl]
        rfl

theorem split_spelled {d : Directive} (s : List Int8) (h : .directive d ∈ split s) : d.Spelled := by
  induction hn : s.length using Nat.strongRecOn generalizing s with
  | _ n ih =>
    cases s with
    | nil =>
      rw [split] at h
      cases h
    | cons c s =>
      have hs : s.length < n := by
        rw [← hn]
        exact Nat.lt_succ_self _
      by_cases hc : c = ch '%'
      · subst hc
        cases hr : Directive.read s with
        | none =>
          rw [split_cut hr] at h
          cases List.mem_singleton.mp h
        | some pair =>
          obtain ⟨d', rest⟩ := pair
          rw [split_directive hr] at h
          rcases List.mem_cons.mp h with heq | hm
          · rw [Piece.directive.inj heq]
            exact Directive.read_spelled hr
          · exact ih _ (Nat.lt_trans (Directive.read_length hr) hs) rest hm rfl
      · rw [split_literal hc] at h
        rcases List.mem_cons.mp h with heq | hm
        · cases heq
        · exact ih _ hs s hm rfl

/-- A format is cut into its pieces, and `do_printf` writes what they render to. A sink that never
fails gets all of it; the count is that of the characters accepted, as an `int`, whatever the sink
refuses. -/
theorem printf_interprets {body : List Int8} (h : 0 ∉ body) (hb : Bounded (split body))
    (hs : Terminated args (split body) 0) :
    (split body).flatMap Piece.text = body ∧
    (∀ d, .directive d ∈ split body → d.Spelled ∧ ∀ c flag, (c, flag) ∈ flagBits →
      (has d.bits flag = true ↔ c ∈ d.flags ∨ c = ch '#' ∧ d.conversion = ch 'p')) ∧
    ∃ text, render args (split body) 0 = some text ∧
      (∀ (δ : Type) (func : Sink δ) (data : δ), NeverFails func →
        doPrintf args func (body ++ [0]) data = some ⟨int32 text.length, deliver func text data⟩) ∧
      ∀ (δ : Type) (func : Sink δ) (data : δ), ∃ r,
        doPrintf args (counting func) (body ++ [0]) (data, 0) = some r ∧
        doPrintf args func (body ++ [0]) data = some (forget r) ∧ r.n = int32 r.data.2 := by
  obtain ⟨text, htext⟩ := render_some hs
  refine ⟨split_text body, fun d hd => ⟨split_spelled body hd, fun c flag hc => Directive.has_bits hc⟩,
    text, htext, fun δ func data hf => ?_, fun δ func data => ?_⟩
  · obtain ⟨r, hr, hdata⟩ := runPieces_record htext ⟨0, []⟩
    have hrun : doPrintf args record (body ++ [0]) [] = some r := (doPrintfLoop_eq h hb).trans hr
    have hstart : Fits (⟨0, data⟩ : Out δ) := fits_start
    rw [doPrintf_sticky hf.sticky data hrun, hf.putAll hstart, hdata, List.nil_append, Int.zero_add]
  · have hstart : Counts (⟨0, data, 0⟩ : Out (δ × Nat)) := by
      show (0 : Int) = int32 ((0 : Nat) : Int)
      decide
    obtain ⟨r, h₁, h₂, h₃⟩ := runPieces_counting htext hstart
    exact ⟨r, (doPrintfLoop_eq h hb).trans h₁, (doPrintfLoop_eq h hb).trans h₂, h₃⟩

theorem neverFails_record : NeverFails record := fun _ _ => le_rfl

/-- `"%d%s%%"` -/
def sample : List Int8 := ['%', 'd', '%', 's', '%', '%'].map ch

theorem split_sample : split sample = [.directive ⟨[], [], none, [], ch 'd'⟩,
    .directive ⟨[], [], none, [], ch 's'⟩, .directive ⟨[], [], none, [], ch '%'⟩] := by
  have hd : Directive.read (['d', '%', 's', '%', '%'].map ch) =
      some (⟨[], [], none, [], ch 'd'⟩, ['%', 's', '%', '%'].map ch) := by decide
  have hs : Directive.read (['s', '%', '%'].map ch) =
      some (⟨[], [], none, [], ch 's'⟩, ['%', '%'].map ch) := by decide
  have hp : Directive.read (['%'].map ch) = some (⟨[], [], none, [], ch '%'⟩, []) := by decide
  have hnil : split [] = [] := by rw [split]
  rw [sample, List.map_cons, split_directive hd, List.map_cons, split_directive hs, List.map_cons,
    split_directive hp, hnil]

/-- The arguments `-7` and `"x"`. -/
def sampleArgs : Args := ⟨fun i => if i = 0 then 2 ^ 32 - 7 else 1, fun _ => [ch 'x', 0]⟩

theorem bounded_sample : Bounded (split sample) := by
  rw [split_sample]
  intro d hd
  simp only [List.mem_cons, Piece.directive.injEq, List.not_mem_nil, or_false] at hd
  rcases hd with rfl | rfl | rfl <;> decide

theorem render_sample : render sampleArgs (split sample) 0 =
    some (['-', '7', 'x', '%'].map fun c => (ch c).toInt) := by
  rw [split_sample]
  decide +kernel

theorem printf_sample : doPrintf sampleArgs record (sample ++ [0]) [] =
    some ⟨4, ['-', '7', 'x', '%'].map fun c => (ch c).toInt⟩ := by
  have hs : Terminated sampleArgs (split sample) 0 := by
    rw [split_sample]
    exact ⟨fun h => absurd h (by decide), fun _ => .inl ⟨1, by decide, by decide⟩,
      fun h => absurd h (by decide), trivial⟩
  obtain ⟨_, _, text, htext, hrun, _⟩ := printf_interprets (by decide) bounded_sample hs
  rw [render_sample] at htext
  rw [hrun _ record [] neverFails_record, ← Option.some.inj htext]
  rfl

/-- `"%2147483647d"` -/
def wide : Directive := ⟨[], ['2', '1', '4', '7', '4', '8', '3', '6', '4', '7'].map ch, none, [], ch 'd'⟩

/-- `"%2147483647d%2147483647d"` -/
def overlong : List Int8 := ch '%' :: (wide.text ++ ch '%' :: wide.text)

theorem split_overlong : split overlong = [.directive wide, .directive wide] := by
  have h₁ : Directive.read (wide.text ++ ch '%' :: wide.text) = some (wide, ch '%' :: wide.text) := by
    decide
  have h₂ : Directive.read wide.text = some (wide, []) := by decide
  have hnil : split [] = [] := by rw [split]
  rw [overlong, split_directive h₁, split_directive h₂, hnil]

/-- Zeros for arguments. -/
def zeroArgs : Args := ⟨fun _ => 0, fun _ => [0]⟩

theorem emits_wide : ∃ text, wide.emits zeroArgs 0 = some text ∧ text.length = 2147483647 := by
  have hmag : magnitude wide.f 0 = (0, wide.f ||| FLAG_PLUS) := by decide
  have hdigits : digitsOf 0 (wide.f ||| FLAG_PLUS) = some [ch '0'] := by decide
  have hlayout : layoutInt 0 (wide.f ||| FLAG_PLUS) 2147483647 0 1 = ⟨2147483646, [], 0, 0⟩ := by decide
  have hwidth : (wide.widthValue : Int) = 2147483647 := by decide
  have hprecision : (wide.precisionValue : Int) = 0 := by decide
  have hemits : wide.emits zeroArgs 0 = intText 0 (wide.f ||| FLAG_PLUS) 2147483647 0 := by
    rw [Directive.emits, if_pos (by decide), hmag, hwidth, hprecision]
  have hspaces : ofInt32 2147483646 = 2147483646 := by decide
  have hnone : ofInt32 0 = 0 := by decide
  refine ⟨times 2147483646 (ch ' ') ++ [(ch '0').toInt], hemits.trans ?_, ?_⟩
  · rw [intText, if_neg (by decide), if_neg (by decide), hdigits, Option.bind_some]
    dsimp only [List.length_cons, List.length_nil]
    rw [hlayout]
    simp only [times, hnone, List.replicate_zero, List.map_nil, List.map_cons, List.nil_append,
      List.append_nil]
  · rw [List.length_append, times, List.length_replicate, hspaces]
    rfl

/-- Each directive writes `2^31 - 1` characters; the count returned is `-2`. -/
theorem count_overflows : Bounded (split overlong) ∧ Terminated zeroArgs (split overlong) 0 ∧
    ∃ r, doPrintf zeroArgs record (overlong ++ [0]) [] = some r ∧ r.n ≠ r.data.length := by
  have hb : Bounded (split overlong) := by
    rw [split_overlong]
    intro d hd
    simp only [List.mem_cons, Piece.directive.injEq, List.not_mem_nil, or_false, or_self] at hd
    rw [hd]
    decide
  have hs : Terminated zeroArgs (split overlong) 0 := by
    rw [split_overlong]
    exact ⟨fun h => absurd h (by decide), fun h => absurd h (by decide), trivial⟩
  obtain ⟨text, htext, hlen⟩ := emits_wide
  have hrender : render zeroArgs (split overlong) 0 = some (text ++ (text ++ [])) := by
    rw [split_overlong, render, render, render]
    show Option.bind (wide.emits zeroArgs 0) (fun text => Option.map _ (Option.bind (wide.emits zeroArgs 0) _)) = _
    rw [htext]
    rfl
  obtain ⟨r, hr, hdata⟩ := runPieces_record hrender ⟨0, []⟩
  have hrun : doPrintf zeroArgs record (overlong ++ [0]) [] = some r :=
    (doPrintfLoop_eq (by decide) hb).trans hr
  have hcount := doPrintf_sticky neverFails_record.sticky [] hrun
  rw [neverFails_record.putAll fits_start, hrun] at hcount
  have hn : r.n = int32 (0 + r.data.length) := congrArg Out.n (Option.some.inj hcount)
  have htotal : r.data.length = 4294967294 := by
    rw [hdata, List.nil_append, List.append_nil, List.length_append, hlen]
  refine ⟨hb, hs, r, hrun, ?_⟩
  rw [hn, htotal]
  decide

end Kvi.Printf
