import Kvi.Library.Poll
import Kvi.Timer.Sleep

/-! The two sleeps.

`usleep` is a copy of `nsleep` that divides by 1000 once more and keeps its
readings in 32 bits. Two successive readings add the same to both totals while
the upper halves of the readings do not differ (`gain32_iff`); where they do, or
where the counter wraps, `usleep` adds about `2 ^ 32` ticks more or less. So the
two sleeps agree in every run of readings that are `AllAlike`. -/
namespace Kvi.Timer

/-- `elapsed` after the next reading in `usleep`. The difference from `1<<width` is a `u32`. -/
def elapse32 (width elapsed time0 time1 : Nat) : Nat :=
  if time1 = time0 then elapsed
  else if time1 < time0 then
    u64 (u64 (elapsed + sub32 (ofInt32 (shiftedOne width)) time1) + time0)
  else u64 (elapsed + sub32 time1 time0)

/-- The loop of `usleep`, with reading `k` next. -/
def Hpet.usleepLoop (h : Hpet) (usec : Nat) (count : Nat → Nat) (k elapsed time0 : Nat) : Option Nat :=
  let time1 := u32 (count k)
  let elapsed := elapse32 h.counterWidth elapsed time0 time1
  if hpetConvertToNsec h elapsed / 1000 < usec then
    h |>.usleepLoop usec count (k + 1) elapsed time1
  else some k
partial_fixpoint

export Hpet (usleepLoop)

/-- `usleep (usec)`, given the readings of the counter. -/
def usleep (h : Hpet) (usec : Nat) (count : Nat → Nat) : Option Nat :=
  usleepLoop h usec count 1 0 (u32 (count 0))

/-! ### The totals -/

/-- What `nsleep` adds for the next reading. -/
def gain (time0 time1 : Nat) : Nat :=
  if time0 ≤ time1 then time1 - time0 else u64 (time0 - time1 + 1)

/-- What `usleep` adds for the halves that it keeps. -/
def gain32 (time0 time1 : Nat) : Nat :=
  if time0 ≤ time1 then time1 - time0
  else if time1 ≤ 1 then time0 - time1 + 1
  else 2 ^ 32 + (time0 - time1) + 1

/-- The total of `nsleep` at reading `k`. -/
def total (count : Nat → Nat) : Nat → Nat
  | 0 => 0
  | k + 1 => u64 (total count k + gain (count k) (count (k + 1)))

/-- The total of `usleep`. -/
def total32 (count : Nat → Nat) : Nat → Nat
  | 0 => 0
  | k + 1 => u64 (total32 count k + gain32 (u32 (count k)) (u32 (count (k + 1))))

/-- `nsec` have gone by when the counter has made so many ticks. -/
def timeUp (h : Hpet) (nsec ticks : Nat) : Bool := decide (nsec ≤ hpetConvertToNsec h ticks)

/-- Two successive readings that add the same to both totals: the upper halves are equal and the
lower ones do not decrease, or the counter has gone back in one of two ways that happen to fit. -/
def Alike (time0 time1 : Nat) : Prop :=
  if time0 ≤ time1 then time1 / 2 ^ 32 = time0 / 2 ^ 32
  else if time1 % 2 ^ 32 ≤ 1 then time1 / 2 ^ 32 = time0 / 2 ^ 32
  else time1 % 2 ^ 32 < time0 % 2 ^ 32 ∧ time0 / 2 ^ 32 = time1 / 2 ^ 32 + 1

/-- The readings are alike until the time is up. -/
def AllAlike (h : Hpet) (nsec : Nat) (count : Nat → Nat) : Prop :=
  ∀ k, (∀ j, 1 ≤ j → j ≤ k → ¬ timeUp h nsec (total count j)) → Alike (count k) (count (k + 1))

variable {h : Hpet} {usec nsec : Nat} {raw count : Nat → Nat} {k r elapsed time0 time1 : Nat}

/-! ### One reading -/

theorem shiftedOne_eq (hw : h.counterWidth = 32 ∨ h.counterWidth = 64) :
    shiftedOne h.counterWidth = 1 := by
  rcases hw with hw | hw
  · rw [hw]
    decide
  · rw [hw]
    decide

theorem elapse_eq (hw : h.counterWidth = 32 ∨ h.counterWidth = 64) (he : elapsed < 2 ^ 64)
    (h1 : time1 < 2 ^ 64) :
    elapse h.counterWidth elapsed time0 time1 = u64 (elapsed + gain time0 time1) := by
  rw [elapse, shiftedOne_eq hw, show ofInt64 1 = 1 from rfl, gain]
  unfold sub64 u64
  rcases lt_trichotomy time0 time1 with hlt | heq | hgt
  · rw [if_neg (by omega), if_neg (by omega), if_pos (by omega)]
    omega
  · rw [if_pos heq.symm, if_pos (by omega)]
    omega
  · rw [if_neg (by omega), if_pos hgt, if_neg (by omega)]
    omega

theorem elapse32_eq (hw : h.counterWidth = 32 ∨ h.counterWidth = 64) (he : elapsed < 2 ^ 64)
    (h1 : time1 < 2 ^ 32) :
    elapse32 h.counterWidth elapsed time0 time1 = u64 (elapsed + gain32 time0 time1) := by
  rw [elapse32, shiftedOne_eq hw, show ofInt32 1 = 1 from rfl, gain32]
  unfold sub32 u32 u64
  rcases lt_trichotomy time0 time1 with hlt | heq | hgt
  · rw [if_neg (by omega), if_neg (by omega), if_pos (by omega)]
    omega
  · rw [if_pos heq.symm, if_pos (by omega)]
    omega
  · rw [if_neg (by omega), if_pos hgt, if_neg (by omega)]
    split_ifs <;> omega

theorem total_lt (count : Nat → Nat) (k : Nat) : total count k < 2 ^ 64 := by
  cases k with
  | zero => exact Nat.two_pow_pos 64
  | succ k => exact Nat.mod_lt _ (Nat.two_pow_pos 64)

theorem total32_lt (count : Nat → Nat) (k : Nat) : total32 count k < 2 ^ 64 := by
  cases k with
  | zero => exact Nat.two_pow_pos 64
  | succ k => exact Nat.mod_lt _ (Nat.two_pow_pos 64)

theorem hpetGetCount_lt (h : Hpet) (n : Nat) : hpetGetCount h n < 2 ^ 64 := by
  unfold hpetGetCount u32 u64
  split_ifs <;> omega

/-! ### The loops -/

section
variable (hw : h.counterWidth = 32 ∨ h.counterWidth = 64) (hlt : ∀ k, count k < 2 ^ 64)
include hw hlt

theorem nsleepLoop_eq : nsleepLoop h nsec count (k + 1) (total count k) (count k) =
    poll (fun k => timeUp h nsec (total count k)) (k + 1) := by
  have helapse : ∀ k, elapse h.counterWidth (total count k) (count k) (count (k + 1)) =
      total count (k + 1) := fun k => elapse_eq hw (total_lt count k) (hlt (k + 1))
  apply Option.ext
  intro r
  constructor
  · intro hnow
    refine Hpet.nsleepLoop.partial_correctness h nsec count
      (fun k' elapsed time0 r => ∀ k, k' = k + 1 → elapsed = total count k → time0 = count k →
        poll (fun k => timeUp h nsec (total count k)) (k + 1) = some r)
      (fun loop ih k' elapsed time0 r hnow => ?_) _ _ _ r hnow k rfl rfl rfl
    intro k hk' he htime
    subst hk' he htime
    dsimp only at hnow
    rw [helapse] at hnow
    rw [poll]
    split at hnow
    · next hless =>
      rw [if_neg (by simpa [timeUp] using hless)]
      exact ih _ _ _ _ hnow (k + 1) rfl rfl rfl
    · next hup =>
      rw [if_pos (by simpa [timeUp] using hup)]
      exact hnow
  · intro hnow
    refine Test.poll.partial_correctness (fun k => timeUp h nsec (total count k))
      (fun k' r => ∀ k, k' = k + 1 →
        nsleepLoop h nsec count (k + 1) (total count k) (count k) = some r)
      (fun loop ih k' r hnow => ?_) _ r hnow k rfl
    intro k hk'
    subst hk'
    rw [nsleepLoop, helapse]
    split at hnow
    · next hup =>
      rw [if_neg (by simpa [timeUp] using hup)]
      exact hnow
    · next hless =>
      rw [if_pos (by simpa [timeUp] using hless)]
      exact ih _ _ hnow (k + 1) rfl

omit hlt in
theorem usleepLoop_eq : usleepLoop h usec count (k + 1) (total32 count k) (u32 (count k)) =
    poll (fun k => timeUp h (1000 * usec) (total32 count k)) (k + 1) := by
  have helapse : ∀ k, elapse32 h.counterWidth (total32 count k) (u32 (count k))
      (u32 (count (k + 1))) = total32 count (k + 1) :=
    fun k => elapse32_eq hw (total32_lt count k) (u32_lt _)
  -- the division by 1000 comes to the same
  have htest : ∀ n, n / 1000 < usec ↔ ¬ 1000 * usec ≤ n := by omega
  apply Option.ext
  intro r
  constructor
  · intro hnow
    refine Hpet.usleepLoop.partial_correctness h usec count
      (fun k' elapsed time0 r => ∀ k, k' = k + 1 → elapsed = total32 count k →
        time0 = u32 (count k) →
        poll (fun k => timeUp h (1000 * usec) (total32 count k)) (k + 1) = some r)
      (fun loop ih k' elapsed time0 r hnow => ?_) _ _ _ r hnow k rfl rfl rfl
    intro k hk' he htime
    subst hk' he htime
    dsimp only at hnow
    rw [helapse] at hnow
    rw [poll]
    split at hnow
    · next hless =>
      rw [if_neg (by simpa [timeUp] using (htest _).mp hless)]
      exact ih _ _ _ _ hnow (k + 1) rfl rfl rfl
    · next hup =>
      rw [if_pos (by simpa [timeUp] using not_not.mp (mt (htest _).mpr hup))]
      exact hnow
  · intro hnow
    refine Test.poll.partial_correctness (fun k => timeUp h (1000 * usec) (total32 count k))
      (fun k' r => ∀ k, k' = k + 1 →
        usleepLoop h usec count (k + 1) (total32 count k) (u32 (count k)) = some r)
      (fun loop ih k' r hnow => ?_) _ r hnow k rfl
    intro k hk'
    subst hk'
    rw [usleepLoop, helapse]
    split at hnow
    · next hup =>
      have hup : 1000 * usec ≤ hpetConvertToNsec h (total32 count (k + 1)) := of_decide_eq_true hup
      rw [if_neg (fun hless => (htest _).mp hless hup)]
      exact hnow
    · next hless =>
      rw [if_pos ((htest _).mpr (by simpa [timeUp] using hless))]
      exact ih _ _ hnow (k + 1) rfl

end

/-! ### Readings that are alike -/

/-- The halves add what the whole readings add exactly when these are alike. -/
theorem gain32_iff (h0 : time0 < 2 ^ 64) (h1 : time1 < 2 ^ 64) :
    gain32 (u32 time0) (u32 time1) = gain time0 time1 ↔ Alike time0 time1 := by
  obtain ⟨a, ha⟩ : ∃ a, a = time0 / 2 ^ 32 := ⟨_, rfl⟩
  obtain ⟨b, hb⟩ : ∃ b, b = time1 / 2 ^ 32 := ⟨_, rfl⟩
  obtain ⟨l, hl⟩ : ∃ l, l = u32 time0 := ⟨_, rfl⟩
  obtain ⟨m, hm⟩ : ∃ m, m = u32 time1 := ⟨_, rfl⟩
  have hl32 : l < 2 ^ 32 := hl ▸ u32_lt _
  have hm32 : m < 2 ^ 32 := hm ▸ u32_lt _
  have htime0 : time0 = 2 ^ 32 * a + l := by
    rw [ha, hl]
    exact (Nat.div_add_mod _ _).symm
  have htime1 : time1 = 2 ^ 32 * b + m := by
    rw [hb, hm]
    exact (Nat.div_add_mod _ _).symm
  have hmod0 : time0 % 2 ^ 32 = l := hl.symm
  have hmod1 : time1 % 2 ^ 32 = m := hm.symm
  rw [Alike, hmod0, hmod1, ← ha, ← hb, ← hl, ← hm, gain32, gain]
  by_cases hle : time0 ≤ time1
  · rw [if_pos hle, if_pos hle]
    split_ifs <;> omega
  · rw [if_neg hle, if_neg hle]
    unfold u64
    split_ifs <;> omega

/-- So long both totals are the same. -/
theorem AllAlike.total_eq (halike : AllAlike h nsec count) (hlt : ∀ k, count k < 2 ^ 64)
    (hk : ∀ j, 1 ≤ j → j ≤ k → ¬ timeUp h nsec (total count j)) :
    total32 count (k + 1) = total count (k + 1) := by
  have hgain : gain32 (u32 (count k)) (u32 (count (k + 1))) = gain (count k) (count (k + 1)) :=
    (gain32_iff (hlt k) (hlt (k + 1))).mpr (halike k hk)
  induction k with
  | zero => rw [total32, total, hgain, total32, total]
  | succ k ih =>
    have hbefore : ∀ j, 1 ≤ j → j ≤ k → ¬ timeUp h nsec (total count j) :=
      fun j hj hjk => hk j hj (Nat.le_succ_of_le hjk)
    have hsame := ih hbefore ((gain32_iff (hlt k) (hlt (k + 1))).mpr (halike k hbefore))
    rw [total32, total, hgain, hsame]

/-- So the two tests say the same until the time is up. -/
theorem AllAlike.timeUp_eq (halike : AllAlike h nsec count) (hlt : ∀ k, count k < 2 ^ 64) (hk : 1 ≤ k)
    (hbefore : ∀ j, 1 ≤ j → j < k → ¬ timeUp h nsec (total count j)) :
    timeUp h nsec (total32 count k) = timeUp h nsec (total count k) := by
  obtain ⟨i, rfl⟩ : ∃ i, k = i + 1 := ⟨k - 1, by omega⟩
  rw [halike.total_eq hlt fun j hj hji => hbefore j hj (by omega)]

/-- In every run of readings that are alike until the time is up, the two sleeps return after the
same reading, or neither returns. -/
theorem sleeps_agree (hw : h.counterWidth = 32 ∨ h.counterWidth = 64)
    (hfits : 1000 * usec < 2 ^ 64) (raw : Nat → Nat)
    (halike : AllAlike h (1000 * usec) fun i => hpetGetCount h (raw i)) :
    usleep h usec (fun i => hpetGetCount h (raw i)) =
      nsleep h (u64 (1000 * usec)) fun i => hpetGetCount h (raw i) := by
  have hlt : ∀ k, hpetGetCount h (raw k) < 2 ^ 64 := fun k => hpetGetCount_lt h (raw k)
  have husleep : usleep h usec (fun i => hpetGetCount h (raw i)) = poll _ (0 + 1) := usleepLoop_eq hw
  have hnsleep : nsleep h (1000 * usec) (fun i => hpetGetCount h (raw i)) = poll _ (0 + 1) :=
    nsleepLoop_eq hw hlt
  rw [u64_of_lt hfits, husleep, hnsleep]
  exact poll_congr fun j hj hbefore => halike.timeUp_eq hlt hj hbefore

/-- A counter of 64 bits at 100 MHz. -/
def wide : Hpet := ⟨64, 10000000⟩

theorem sleeps_agree_wide : usleep wide 1 (fun i => hpetGetCount wide (100 * min i 2)) =
    nsleep wide (u64 (1000 * 1)) fun i => hpetGetCount wide (100 * min i 2) := by
  refine sleeps_agree (.inr rfl) (by decide) (fun i => 100 * min i 2) fun k _ => ?_
  have hread : ∀ i, hpetGetCount wide (100 * min i 2) = 100 * min i 2 := by
    intro i
    have hw : wide.counterWidth = 64 := rfl
    rw [hpetGetCount, if_pos hw, u64_of_lt (by omega)]
  show Alike (hpetGetCount wide (100 * min k 2)) (hpetGetCount wide (100 * min (k + 1) 2))
  rw [hread, hread, Alike, if_pos (by omega), Nat.div_eq_of_lt (by omega), Nat.div_eq_of_lt (by omega)]

/-- 32 ticks that change the upper half, then 200000 more. -/
def carry (i : Nat) : Nat := 0xfffffff0 + 32 * min i 1 + 200000 * (i - 1)

/-- A millisecond is over for `usleep` after the first 32 ticks. -/
theorem carry_ends_usleep : usleep wide 1000 (fun i => hpetGetCount wide (carry i)) = some 1 ∧
    nsleep wide (u64 (1000 * 1000)) (fun i => hpetGetCount wide (carry i)) = some 2 := by
  constructor
  · rw [usleep, usleepLoop, if_neg (by decide)]
  · rw [nsleep, nsleepLoop, if_pos (by decide), nsleepLoop, if_neg (by decide)]

end Kvi.Timer
