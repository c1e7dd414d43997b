import Kvi.Timer.Hpet

/-! Sleeping.

`nsleep` polls the counter and adds up the differences of successive readings.
Where a reading is below the one before, the counter has wrapped, and what is
added is wrong: `1 << width` shifts an `int` by at least its own width, which the
processor takes for a shift by zero, and the two readings are exchanged. The
product of the total and the period is kept in 64 bits. So the sleep is as long
as it should be while the counter does not wrap and the product fits. -/
namespace Kvi.Timer

/-- `1<<width`, an `int`; the processor takes the count modulo 32. -/
def shiftedOne (width : Nat) : Int := int32 (2 ^ (width % 32))

/-- `elapsed` after the next reading. -/
def elapse (width elapsed time0 time1 : Nat) : Nat :=
  if time1 = time0 then elapsed
  else if time1 < time0 then
    u64 (u64 (elapsed + sub64 (ofInt64 (shiftedOne width)) time1) + time0)
  else u64 (elapsed + sub64 time1 time0)

/-- The loop of `nsleep`, with reading `k` next: the reading after which it returns. -/
def Hpet.nsleepLoop (h : Hpet) (nsec : Nat) (count : Nat → Nat) (k elapsed time0 : Nat) : Option Nat :=
  let elapsed := elapse h.counterWidth elapsed time0 (count k)
  if hpetConvertToNsec h elapsed < nsec then h |>.nsleepLoop nsec count (k + 1) elapsed (count k)
  else some k
partial_fixpoint

export Hpet (nsleepLoop)

/-- `nsleep (nsec)`, given the readings of the counter; no result is that it polls for ever. -/
def nsleep (h : Hpet) (nsec : Nat) (count : Nat → Nat) : Option Nat :=
  nsleepLoop h nsec count 1 0 (count 0)

/-! ### What is promised -/

/-- The ticks made until each reading; the counter wraps at most once between two of them. -/
structure Ticking (width : Nat) (ticks : Nat → Nat) : Prop where
  mono : ∀ k, ticks k ≤ ticks (k + 1)
  near : ∀ k, ticks (k + 1) < ticks k + 2 ^ width

/-- At reading `k` the time is up. -/
def Passed (h : Hpet) (nsec : Nat) (ticks : Nat → Nat) (k : Nat) : Prop :=
  nsec ≤ (ticks k - ticks 0) * h.period / 1000000

/-- The first reading at which the time is up. -/
def First (h : Hpet) (nsec : Nat) (ticks : Nat → Nat) (k : Nat) : Prop :=
  1 ≤ k ∧ Passed h nsec ticks k ∧ ∀ j, 1 ≤ j → j < k → ¬ Passed h nsec ticks j

/-- `nsleep` returns at that reading, and polls for ever when there is none. -/
def Measures (h : Hpet) (nsec : Nat) (ticks : Nat → Nat) : Prop :=
  ∀ k, nsleep h nsec (fun i => hpetGetCount h (ticks i)) = some k ↔ First h nsec ticks k

/-- The time is not up at any reading up to `k`. -/
def Waiting (h : Hpet) (nsec : Nat) (ticks : Nat → Nat) (k : Nat) : Prop :=
  ∀ j, 1 ≤ j → j ≤ k → ¬ Passed h nsec ticks j

/-- Up to the reading at which the time is up the counter does not wrap, and the product of the
ticks and the period fits in 64 bits. -/
def Clear (h : Hpet) (nsec : Nat) (ticks : Nat → Nat) : Prop :=
  ∀ k, Waiting h nsec ticks k →
    hpetGetCount h (ticks k) ≤ hpetGetCount h (ticks (k + 1)) ∧
      (ticks (k + 1) - ticks 0) * h.period < 2 ^ 64

variable {h : Hpet} {nsec : Nat} {ticks : Nat → Nat} {k r elapsed time0 : Nat}

/-! ### One reading -/

theorem hpetGetCount_eq (hw : h.counterWidth = 32 ∨ h.counterWidth = 64) (n : Nat) :
    hpetGetCount h n = n % 2 ^ h.counterWidth := by
  rcases hw with hw | hw
  · rw [hpetGetCount, hw, if_neg (by decide)]
    rfl
  · rw [hpetGetCount, hw, if_pos rfl]
    rfl

/-- The total grows by the ticks made, except at a wrap: there it is wrong whatever the readings
are. -/
theorem elapse_iff (hw : h.counterWidth = 32 ∨ h.counterWidth = 64)
    (ht : Ticking h.counterWidth ticks) (he : elapsed < 2 ^ 64) :
    elapse h.counterWidth elapsed (hpetGetCount h (ticks k)) (hpetGetCount h (ticks (k + 1))) =
        u64 (elapsed + (ticks (k + 1) - ticks k)) ↔
      hpetGetCount h (ticks k) ≤ hpetGetCount h (ticks (k + 1)) := by
  have hmono := ht.mono k
  have hnear := ht.near k
  have hone : ofInt64 (shiftedOne h.counterWidth) = 1 := by
    rcases hw with hw | hw
    · rw [hw]
      decide
    · rw [hw]
      decide
  rw [hpetGetCount_eq hw, hpetGetCount_eq hw, elapse, hone]
  unfold sub64 u64
  rcases hw with hw | hw
  · rw [hw] at hnear ⊢
    split_ifs <;> omega
  · rw [hw] at hnear ⊢
    split_ifs <;> omega

theorem Waiting.succ (hk : Waiting h nsec ticks k) (hnext : ¬ Passed h nsec ticks (k + 1)) :
    Waiting h nsec ticks (k + 1) := by
  intro j hj hjk
  by_cases heq : j = k + 1
  · rw [heq]
    exact hnext
  · exact hk j hj (by omega)

section
variable (hw : h.counterWidth = 32 ∨ h.counterWidth = 64) (hp : 0 < h.period)
  (ht : Ticking h.counterWidth ticks) (hc : Clear h nsec ticks)
include hw hp ht hc

/-- A reading while the sleep lasts: the total is right, and so is the test. -/
theorem Clear.reading (hk : Waiting h nsec ticks k) (he : elapsed = ticks k - ticks 0) :
    elapse h.counterWidth elapsed (hpetGetCount h (ticks k)) (hpetGetCount h (ticks (k + 1))) =
        ticks (k + 1) - ticks 0 ∧
      (hpetConvertToNsec h (ticks (k + 1) - ticks 0) < nsec ↔ ¬ Passed h nsec ticks (k + 1)) := by
  obtain ⟨hle, hfits⟩ := hc k hk
  have h0 : ticks 0 ≤ ticks k := monotone_nat_of_le_succ ht.mono (Nat.zero_le k)
  have hmono := ht.mono k
  have hlt : ticks (k + 1) - ticks 0 < 2 ^ 64 :=
    Nat.lt_of_le_of_lt (Nat.le_mul_of_pos_right _ hp) hfits
  constructor
  · rw [(elapse_iff hw ht (by omega)).mpr hle, he, u64_of_lt (by omega)]
    omega
  · rw [hpetConvertToNsec, u64_of_lt hfits, Passed, not_le]

/-- The loop returns at the first reading at which the time is up. -/
theorem Clear.loop_first (hnow : nsleepLoop h nsec (fun i => hpetGetCount h (ticks i)) (k + 1)
      (ticks k - ticks 0) (hpetGetCount h (ticks k)) = some r) (hk : Waiting h nsec ticks k) :
    First h nsec ticks r := by
  revert hk
  refine Hpet.nsleepLoop.partial_correctness h nsec (fun i => hpetGetCount h (ticks i))
    (fun k' elapsed time0 r => ∀ k, k' = k + 1 → elapsed = ticks k - ticks 0 →
      time0 = hpetGetCount h (ticks k) → Waiting h nsec ticks k → First h nsec ticks r)
    (fun loop ih k' elapsed time0 r hnow => ?_) _ _ _ r hnow k rfl rfl rfl
  intro k hk' he htime hk
  subst hk' htime
  obtain ⟨helapse, htest⟩ := hc.reading hw hp ht hk he
  rw [helapse] at hnow
  dsimp only at hnow
  split at hnow
  · next hlt =>
    exact ih _ _ _ _ hnow (k + 1) rfl rfl rfl (hk.succ (htest.mp hlt))
  · next hlt =>
    obtain rfl := Option.some.inj hnow
    refine ⟨by omega, not_not.mp (mt htest.mpr hlt), fun j hj hjk => ?_⟩
    exact hk j hj (by omega)

/-- It gets to that reading. -/
theorem Clear.loop_returns (hr : First h nsec ticks r) (hkr : k < r) :
    ∃ r', nsleepLoop h nsec (fun i => hpetGetCount h (ticks i)) (k + 1)
      (ticks k - ticks 0) (hpetGetCount h (ticks k)) = some r' := by
  obtain ⟨d, hd⟩ := Nat.exists_eq_add_of_lt hkr
  induction d generalizing k with
  | zero =>
    have hk : Waiting h nsec ticks k := fun j hj hjk => hr.2.2 j hj (by omega)
    obtain ⟨helapse, htest⟩ := hc.reading hw hp ht hk rfl
    have hpassed : Passed h nsec ticks (k + 1) := by
      rw [show k + 1 = r by omega]
      exact hr.2.1
    refine ⟨k + 1, ?_⟩
    rw [nsleepLoop, helapse, if_neg fun hlt => htest.mp hlt hpassed]
  | succ d ih =>
    have hk : Waiting h nsec ticks k := fun j hj hjk => hr.2.2 j hj (by omega)
    obtain ⟨helapse, htest⟩ := hc.reading hw hp ht hk rfl
    obtain ⟨r', hr'⟩ := ih (k := k + 1) (by omega) (by omega)
    refine ⟨r', ?_⟩
    rw [nsleepLoop, helapse, if_pos (htest.mpr (hr.2.2 (k + 1) (by omega) (by omega)))]
    exact hr'

end

/-- `nsleep` measures real time as long as the counter does not wrap during the sleep and the
product of ticks and period fits in 64 bits. -/
theorem sleeps_when_clear (hw : h.counterWidth = 32 ∨ h.counterWidth = 64) (hp : 0 < h.period)
    (ht : Ticking h.counterWidth ticks) (hc : Clear h nsec ticks) : Measures h nsec ticks := by
  have hnone : Waiting h nsec ticks 0 := fun j hj hj0 => absurd hj (by omega)
  have hstart : nsleep h nsec (fun i => hpetGetCount h (ticks i)) =
      nsleepLoop h nsec (fun i => hpetGetCount h (ticks i)) (0 + 1) (ticks 0 - ticks 0)
        (hpetGetCount h (ticks 0)) := by
    rw [Nat.sub_self]
    rfl
  intro k
  rw [hstart]
  constructor
  · intro hnow
    exact hc.loop_first hw hp ht hnow hnone
  · intro hfirst
    obtain ⟨r, hr⟩ := hc.loop_returns hw hp ht hfirst hfirst.1
    have hfirst' := hc.loop_first hw hp ht hr hnone
    have hkr : k = r := by
      rcases lt_trichotomy k r with hlt | heq | hgt
      · exact absurd hfirst.2.1 (hfirst'.2.2 k hfirst.1 hlt)
      · exact heq
      · exact absurd hfirst'.2.1 (hfirst.2.2 r hfirst'.1 hgt)
    rw [hkr]
    exact hr

/-- A 32-bit counter at 14.3 MHz. -/
def quartz : Hpet := ⟨32, 69841279⟩

/-- A counter that is read every 32 ticks, from `start` on. -/
def every32 (start k : Nat) : Nat := start + 32 * min k 2

theorem every32_ticking (start : Nat) : Ticking quartz.counterWidth (every32 start) := by
  have hw : quartz.counterWidth = 32 := rfl
  refine ⟨fun k => ?_, fun k => ?_⟩
  · unfold every32
    omega
  · rw [hw]
    unfold every32
    omega

theorem sleeps_quartz : Measures quartz 3000 (every32 0) := by
  refine sleeps_when_clear (.inl rfl) (by decide) (every32_ticking 0) fun k _ => ⟨?_, ?_⟩
  · rw [hpetGetCount_eq (.inl rfl), hpetGetCount_eq (.inl rfl)]
    have hw : quartz.counterWidth = 32 := rfl
    rw [hw]
    unfold every32
    omega
  · have hp : quartz.period = 69841279 := rfl
    rw [hp]
    unfold every32
    omega

/-- A millisecond is over after 32 ticks when the counter wraps. -/
theorem wrap_ends_sleep : Ticking quartz.counterWidth (every32 0xfffffff0) ∧
    nsleep quartz 1000000 (fun i => hpetGetCount quartz (every32 0xfffffff0 i)) = some 1 ∧
    ¬ Measures quartz 1000000 (every32 0xfffffff0) := by
  have hnow : nsleep quartz 1000000 (fun i => hpetGetCount quartz (every32 0xfffffff0 i)) =
      some 1 := by
    rw [nsleep, nsleepLoop, if_neg (by decide)]
  refine ⟨every32_ticking _, hnow, fun hm => ?_⟩
  have hfirst := (hm 1).mp hnow
  exact absurd hfirst.2.1 (by unfold Passed; decide)

end Kvi.Timer
