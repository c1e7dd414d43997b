import Kvi.Library.Memory
import Kvi.Printf.Sinks

/-! `vsnprintf`.

`do_snputchar` stores into a buffer as long as there is room, and what it stores in
the last byte is a NUL whatever it was given. It fails for good once the buffer is
full, so `vsnprintf` leaves a beginning of what an unbounded sink gets
(`vsnprintf_eq`). -/
namespace Kvi.Printf

/-- `struct snputchar_data`, and the memory `buf` points into. -/
structure SnputcharData where
  mem : Memory
  buf : Nat
  len : Nat

/-- `(char)c` -/
def charOf (c : Int) : UInt8 := UInt8.ofNat (ofInt32 c)

def doSnputchar : Sink SnputcharData := fun c p =>
  if p.len = 0 then (-1, p)
  else
    let len := p.len - 1
    let c := if len = 0 then 0 else c
    (0, ⟨Function.update p.mem p.buf (charOf c), p.buf + 1, len⟩)

/-- `vsnprintf (str, size, format, ap)`: what it returns, and the memory it leaves. -/
def vsnprintf (args : Args) (str size : Nat) (format : List Int8) (mem : Memory) :
    Option (Int × Memory) := do
  let r ← doPrintf args doSnputchar format ⟨mem, str, size⟩
  some (r.n, (doSnputchar 0 r.data).2.mem)

variable {args : Args} {text : List Int} {o : Out SnputcharData} {p : SnputcharData} {c : Int}
  {mem : Memory} {buf len str size b : Nat} {format : List Int8}

theorem doSnputchar_full (h : p.len = 0) : doSnputchar c p = (-1, p) := if_pos h

theorem doSnputchar_room (h : p.len = len + 1) : doSnputchar c p =
    (0, ⟨Function.update p.mem p.buf (charOf (if len = 0 then 0 else c)), p.buf + 1, len⟩) := by
  rw [doSnputchar, if_neg (by omega), h, Nat.add_sub_cancel]

theorem sticky_doSnputchar : Sticky doSnputchar := by
  intro c p hr
  cases hlen : p.len with
  | zero =>
    rw [doSnputchar_full hlen]
    refine ⟨rfl, fun c' => ?_⟩
    rw [doSnputchar_full hlen]
    exact Int.negSucc_lt_zero 0
  | succ len =>
    rw [doSnputchar_room hlen] at hr
    exact absurd hr (Int.lt_irrefl 0)

/-- The memory after a text has been put into `len` bytes at `buf`. -/
def stored (text : List Int) (buf len : Nat) (mem : Memory) : Memory := fun b =>
  if buf ≤ b ∧ b < buf + min text.length len then
    if b + 1 = buf + len then 0 else charOf (text.getD (b - buf) 0)
  else mem b

theorem stored_nil : stored [] buf len mem = mem := by
  funext b
  rw [stored, if_neg]
  rw [List.length_nil, Nat.zero_min]
  omega

theorem stored_full : stored text buf 0 mem = mem := by
  funext b
  rw [stored, if_neg]
  rw [Nat.min_zero]
  omega

/-- The first character, and the rest behind it. -/
theorem stored_cons : stored text (buf + 1) len
    (Function.update mem buf (charOf (if len = 0 then 0 else c))) =
      stored (c :: text) buf (len + 1) mem := by
  funext b
  have hzero : charOf 0 = 0 := by decide
  have hmin : min (text.length + 1) (len + 1) = min text.length len + 1 := by omega
  rw [stored, stored, List.length_cons, hmin]
  by_cases hb : b = buf
  · have hout : ¬ (buf + 1 ≤ buf ∧ buf < buf + 1 + min text.length len) := by omega
    have hin : buf ≤ buf ∧ buf < buf + (min text.length len + 1) := by omega
    rw [hb, if_neg hout, if_pos hin, Function.update_self, Nat.sub_self, List.getD_cons_zero]
    by_cases hl : len = 0
    · have hlast : buf + 1 = buf + (len + 1) := by omega
      rw [if_pos hl, if_pos hlast, hzero]
    · have hlast : ¬ buf + 1 = buf + (len + 1) := by omega
      rw [if_neg hl, if_neg hlast]
  · rw [Function.update_of_ne hb]
    by_cases hin : buf + 1 ≤ b ∧ b < buf + 1 + min text.length len
    · have hin' : buf ≤ b ∧ b < buf + (min text.length len + 1) := by omega
      have hsub : b - buf = (b - (buf + 1)) + 1 := by omega
      have hlast : buf + 1 + len = buf + (len + 1) := by omega
      rw [if_pos hin, if_pos hin', hsub, List.getD_cons_succ, hlast]
    · have hout : ¬ (buf ≤ b ∧ b < buf + (min text.length len + 1)) := by omega
      rw [if_neg hin, if_neg hout]

/-- The buffer takes what it has room for. -/
theorem putAll_doSnputchar (ho : Fits o) : settle (putAll doSnputchar text o) =
    ⟨int32 (o.n + (min text.length o.data.len : Nat)),
      ⟨stored text o.data.buf o.data.len o.data.mem, o.data.buf + min text.length o.data.len,
        o.data.len - min text.length o.data.len⟩⟩ := by
  obtain ⟨n, mem, buf, len⟩ := o
  induction text generalizing n mem buf len with
  | nil =>
    have hn : int32 (n + ((0 : Nat) : Int)) = n := by
      rw [Int.natCast_zero, Int.add_zero]
      exact ho
    dsimp only
    rw [stored_nil, List.length_nil, Nat.zero_min, hn]
    rfl
  | cons c text ih =>
    cases len with
    | zero =>
      have hn : int32 (n + ((0 : Nat) : Int)) = n := by
        rw [Int.natCast_zero, Int.add_zero]
        exact ho
      have hput : putChar doSnputchar c ⟨n, mem, buf, 0⟩ = .error ⟨n, mem, buf, 0⟩ :=
        if_pos (Int.negSucc_lt_zero 0)
      rw [putAll_cons_error hput]
      dsimp only
      rw [stored_full, Nat.min_zero, hn]
      rfl
    | succ len =>
      have hput : putChar doSnputchar c ⟨n, mem, buf, len + 1⟩ = .ok ⟨int32 (n + 1),
          Function.update mem buf (charOf (if len = 0 then 0 else c)), buf + 1, len⟩ := by
        have hroom : doSnputchar c ⟨mem, buf, len + 1⟩ =
            (0, ⟨Function.update mem buf (charOf (if len = 0 then 0 else c)), buf + 1, len⟩) :=
          doSnputchar_room rfl
        rw [putChar, hroom]
        exact if_neg (Int.lt_irrefl 0)
      have hfits : Fits (⟨int32 (n + 1), Function.update mem buf (charOf (if len = 0 then 0 else c)),
          buf + 1, len⟩ : Out SnputcharData) := int32_int32 _
      have hmin : min (text.length + 1) (len + 1) = min text.length len + 1 := by omega
      rw [putAll_cons_ok hput, ih _ _ _ _ hfits]
      dsimp only
      rw [stored_cons, List.length_cons, hmin, int32_add]
      refine congrArg₂ Out.mk ?_ ?_
      · congr 1
        omega
      · refine congrArg₂ (SnputcharData.mk _) ?_ ?_
        · omega
        · omega

/-- The call in terms of the text of the unbounded one. -/
theorem vsnprintf_eq {r : Out (List Int)} (hrun : doPrintf args record format [] = some r) :
    vsnprintf args str size format mem = some (int32 (min r.data.length size : Nat),
      (doSnputchar 0 ⟨stored r.data str size mem, str + min r.data.length size,
        size - min r.data.length size⟩).2.mem) := by
  have hstart : Fits (⟨0, mem, str, size⟩ : Out SnputcharData) := fits_start
  have hput := doPrintf_sticky sticky_doSnputchar ⟨mem, str, size⟩ hrun
  rw [putAll_doSnputchar hstart, Int.zero_add] at hput
  rw [vsnprintf, hput]
  rfl

/-- `vsnprintf` leaves the beginning of what `do_printf` writes to a sink that never fails, ended by
a NUL, in the `size` bytes it is given, and returns how many of them it filled. -/
theorem vsnprintf_truncates {r : Out (List Int)} (hrun : doPrintf args record format [] = some r)
    (hlen : r.data.length < 2 ^ 31) :
    ∃ mem', vsnprintf args str size format mem = some (((min r.data.length size : Nat) : Int), mem') ∧
      (∀ b, b < str ∨ str + size ≤ b → mem' b = mem b) ∧
      (1 ≤ size →
        (∀ i < min r.data.length (size - 1), mem' (str + i) = charOf (r.data.getD i 0)) ∧
        mem' (str + min r.data.length (size - 1)) = 0 ∧
        (((size : Nat) : Int) ≤ ((min r.data.length size : Nat) : Int) ↔
          min r.data.length (size - 1) < r.data.length)) := by
  have hcount : int32 ((min r.data.length size : Nat) : Int) = (min r.data.length size : Nat) :=
    int32_of_range (by omega) (by omega)
  have hzero : charOf 0 = 0 := by decide
  rw [vsnprintf_eq hrun, hcount]
  refine ⟨_, rfl, ?_⟩
  by_cases hfull : size ≤ r.data.length
  · -- the buffer was filled, its last byte with a NUL
    have hmin : min r.data.length size = size := Nat.min_eq_right hfull
    rw [hmin, Nat.sub_self, doSnputchar_full rfl]
    dsimp only
    refine ⟨fun b hb => ?_, fun h1 => ⟨fun i hi => ?_, ?_, ?_⟩⟩
    · rw [stored, hmin, if_neg (by omega)]
    · have hin : str ≤ str + i ∧ str + i < str + size := by omega
      have hlast : ¬ str + i + 1 = str + size := by omega
      rw [stored, hmin, if_pos hin, if_neg hlast, Nat.add_sub_cancel_left]
    · have hin : str ≤ str + min r.data.length (size - 1) ∧
          str + min r.data.length (size - 1) < str + size := by omega
      have hlast : str + min r.data.length (size - 1) + 1 = str + size := by omega
      rw [stored, hmin, if_pos hin, if_pos hlast]
    · omega
  · -- there is room for the NUL
    have hmin : min r.data.length size = r.data.length := Nat.min_eq_left (by omega)
    have hroom : doSnputchar 0 ⟨stored r.data str size mem, str + r.data.length, size - r.data.length⟩ =
        (0, ⟨Function.update (stored r.data str size mem) (str + r.data.length)
          (charOf (if size - r.data.length - 1 = 0 then 0 else 0)), str + r.data.length + 1,
          size - r.data.length - 1⟩) :=
      doSnputchar_room (by
        show size - r.data.length = size - r.data.length - 1 + 1
        omega)
    rw [hmin, hroom, ite_self, hzero]
    dsimp only
    refine ⟨fun b hb => ?_, fun h1 => ⟨fun i hi => ?_, ?_, ?_⟩⟩
    · rw [Function.update_of_ne (by omega), stored, hmin, if_neg (by omega)]
    · have hin : str ≤ str + i ∧ str + i < str + r.data.length := by omega
      have hlast : ¬ str + i + 1 = str + size := by omega
      rw [Function.update_of_ne (by omega), stored, hmin, if_pos hin, if_neg hlast,
        Nat.add_sub_cancel_left]
    · have hend : min r.data.length (size - 1) = r.data.length := by omega
      rw [hend, Function.update_self]
    · omega

/-- `"%d%s%%"` with `-7` and `"x"` in three bytes: `"-7"` and a NUL. -/
theorem vsnprintf_sample : ∃ mem', vsnprintf sampleArgs 0x1000 3 (sample ++ [0]) (fun _ => 0xff) =
      some (3, mem') ∧
    mem' 0x1000 = charOf (ch '-').toInt ∧ mem' 0x1001 = charOf (ch '7').toInt ∧ mem' 0x1002 = 0 ∧
    mem' 0x1003 = 0xff := by
  obtain ⟨r, hr, hdata⟩ := runPieces_record render_sample ⟨0, []⟩
  have hrun : doPrintf sampleArgs record (sample ++ [0]) [] = some r :=
    (doPrintfLoop_eq (by decide) bounded_sample).trans hr
  have hdata : r.data = ['-', '7', 'x', '%'].map fun c => (ch c).toInt := hdata
  have hlen : r.data.length = 4 := by
    rw [hdata]
    rfl
  have h : ∃ mem', vsnprintf sampleArgs 0x1000 3 (sample ++ [0]) (fun _ => 0xff) = _ ∧ _ ∧ _ :=
    vsnprintf_truncates hrun (by omega)
  obtain ⟨mem', hv, hout, hin⟩ := h
  obtain ⟨htext, hend, _⟩ := hin (by decide)
  rw [hlen] at hv htext hend
  refine ⟨mem', hv, ?_, ?_, hend, hout _ (.inr le_rfl)⟩
  · have hfirst := htext 0 (by decide)
    rw [hdata] at hfirst
    exact hfirst
  · have hsecond := htext 1 (by decide)
    rw [hdata] at hsecond
    exact hsecond

end Kvi.Printf
