import Kvi.Printf.Convert

/-! `valconv` and its buffer.

`Convert.lean` keeps the characters alone; here the buffer and the count are those
of the source, and a write behind the buffer has no result, just as a read behind
the table or behind the digits. `valconv_writes` is what is left in the buffer. -/
namespace Kvi.Printf

/-- `*buf++ = c`, where `n` characters have been put already. -/
def putByte (buf : List Int8) (n : Nat) (c : Int8) : Option (List Int8) :=
  if n < buf.length then some (buf.set n c) else none

/-- `while (*sub)`: the buffer, and `n`. -/
def fillDigits (str : List Int8) : List Nat → Nat → List Int8 → Nat → Option (List Int8 × Nat)
  | [], _, _, _ => none
  | p :: sub, val, buf, n =>
    if p = 0 then some (buf, n)
    else
      (str[(takeOff p val 0).1]?).bind fun c =>
        (putByte buf n c).bind fun buf => fillDigits str sub (takeOff p val 0).2 buf (n + 1)

/-- `valconv (val, buf, sub, str)`: the buffer behind the call, and what it returns. -/
def valconvInto (val : Nat) (buf : List Int8) (sub : List Nat) (str : List Int8) :
    Option (List Int8 × Nat) :=
  if val = 0 then (putByte buf 0 (ch '0')).map fun buf => (buf, 1)
  else (skipLarger val sub).bind fun sub => fillDigits str sub val buf 0

variable {val : Nat} {sub : List Nat} {str buf done cs : List Int8} {c : Int8}

theorem putByte_append (c' : Int8) :
    putByte (done ++ c' :: buf) done.length c = some ((done ++ [c]) ++ buf) := by
  rw [putByte, if_pos (by simp), List.set_append_right _ _ le_rfl, Nat.sub_self, List.set_cons_zero,
    List.append_assoc, List.singleton_append]

/-- Where there is room the loop puts the characters one behind the other. -/
theorem fillDigits_eq (h : writeDigits str sub val = some cs) (hroom : cs.length ≤ buf.length) :
    fillDigits str sub val (done ++ buf) done.length =
      some (done ++ cs ++ buf.drop cs.length, done.length + cs.length) := by
  induction sub generalizing val done buf cs with
  | nil => cases h
  | cons p sub ih =>
    rw [writeDigits] at h
    rw [fillDigits]
    by_cases hp : p = 0
    · rw [if_pos hp] at h ⊢
      obtain rfl := Option.some.inj h
      simp
    · rw [if_neg hp] at h ⊢
      obtain ⟨c, hc, h⟩ := Option.bind_eq_some_iff.mp h
      obtain ⟨rest, hrest, h⟩ := Option.bind_eq_some_iff.mp h
      obtain rfl := Option.some.inj h
      cases buf with
      | nil => cases hroom
      | cons c' buf =>
        have hnext : fillDigits str sub _ ((done ++ [c]) ++ buf) (done ++ [c]).length = _ :=
          ih hrest (Nat.le_of_succ_le_succ hroom)
        rw [List.length_append, List.length_singleton] at hnext
        rw [hc, Option.bind_some, putByte_append, Option.bind_some, hnext, List.append_assoc done,
          List.singleton_append, List.length_cons, List.drop_succ_cons, Nat.add_assoc, Nat.add_comm 1]

theorem valconvInto_eq (h : valconv val sub str = some cs) (hroom : cs.length ≤ buf.length) :
    valconvInto val buf sub str = some (cs ++ buf.drop cs.length, cs.length) := by
  rw [valconv] at h
  rw [valconvInto]
  by_cases hz : val = 0
  · rw [if_pos hz] at h ⊢
    obtain rfl := Option.some.inj h
    cases buf with
    | nil => cases hroom
    | cons c' buf =>
      have hput : putByte ([] ++ c' :: buf) 0 (ch '0') = _ := putByte_append c'
      exact congrArg (Option.map fun buf => (buf, 1)) hput
  · rw [if_neg hz] at h ⊢
    obtain ⟨sub', hskip, hwrite⟩ := Option.bind_eq_some_iff.mp h
    have hfill : fillDigits str sub' val ([] ++ buf) 0 = _ := fillDigits_eq hwrite hroom
    rw [hskip, Option.bind_some]
    simpa using hfill

/-- The bases of `do_conversion_int`, with the table and the digits it hands over for each. -/
def tables : List (Nat × List Nat × List Int8) :=
  [(10, sub10, decimalDigits), (8, sub8, octalDigits), (16, sub16, upperDigits), (16, sub16, lowerDigits)]

theorem radix_of_tables {b : Nat} (h : (b, sub, str) ∈ tables) :
    ∃ r : Radix, r.base = b ∧ r.sub = sub ∧ r.str = str := by
  simp only [tables, List.mem_cons, List.not_mem_nil, or_false, Prod.mk.injEq] at h
  rcases h with ⟨rfl, rfl, rfl⟩ | ⟨rfl, rfl, rfl⟩ | ⟨rfl, rfl, rfl⟩ | ⟨rfl, rfl, rfl⟩
  · exact ⟨.decimal, rfl, rfl, rfl⟩
  · exact ⟨.octal, rfl, rfl, rfl⟩
  · exact ⟨.upper, rfl, rfl, rfl⟩
  · exact ⟨.lower, rfl, rfl, rfl⟩

/-- Each table gives the numeral of the value in its base: its characters at the start of the buffer,
and their number returned. -/
theorem valconv_writes {b : Nat} (h : (b, sub, str) ∈ tables) (hval : val < 2 ^ 64)
    (hbuf : buf.length = 32) :
    ∃ ds, valconvInto val buf sub str = some (ds.map (digitChar str) ++ buf.drop ds.length, ds.length) ∧
      IsNumeral b val ds ∧ (∀ ds', IsNumeral b val ds' → ds' = ds) ∧ ds.length ≤ 22 ∧
      ∀ d ∈ ds, d < str.length := by
  obtain ⟨r, rfl, rfl, rfl⟩ := radix_of_tables h
  have hlen : (r.digits val).length ≤ 22 := Radix.length_le hval
  have hwrite : valconvInto val buf r.sub r.str = _ :=
    valconvInto_eq (Radix.valconv_eq hval) (Nat.le_trans hlen (by omega))
  have hnumeral := isNumeral_numeral (n := val) r.one_lt
  rw [Radix.digits, List.length_map] at hwrite hlen
  refine ⟨numeral r.base val, hwrite, hnumeral, fun ds' h => h.eq r.one_lt, hlen, ?_⟩
  rw [r.str_length]
  exact hnumeral.lt

theorem valconv_writes_last : (16, sub16, lowerDigits) ∈ tables ∧ 2 ^ 64 - 1 < 2 ^ 64 ∧
    (List.replicate 32 (0 : Int8)).length = 32 ∧
    ∃ ds, valconvInto (2 ^ 64 - 1) (List.replicate 32 0) sub16 lowerDigits =
        some (ds.map (digitChar lowerDigits) ++ (List.replicate 32 0).drop ds.length, ds.length) ∧
      IsNumeral 16 (2 ^ 64 - 1) ds ∧ (∀ ds', IsNumeral 16 (2 ^ 64 - 1) ds' → ds' = ds) ∧
      ds.length ≤ 22 ∧ ∀ d ∈ ds, d < lowerDigits.length :=
  ⟨by decide, by decide, by decide, valconv_writes (by decide) (by decide) (by decide)⟩

end Kvi.Printf
