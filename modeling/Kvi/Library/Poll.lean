import Mathlib.Tactic

/-! Loops that poll.

A polling loop tests the state again and again and ends at the first test that
succeeds; there may be none (`poll_eq_some`). Two such loops return together when
up to there their tests say the same (`poll_congr`). -/
namespace Kvi

/-- What is tested again and again. -/
abbrev Test := Nat → Bool

/-- The first index from `k` on at which the test succeeds. -/
def Test.poll (up : Test) (k : Nat) : Option Nat :=
  if up k then some k
  else up |>.poll (k + 1)
partial_fixpoint

export Test (poll)

variable {up up' : Test} {k r : Nat}

theorem poll_eq_some : poll up k = some r ↔ k ≤ r ∧ up r ∧ ∀ j, k ≤ j → j < r → ¬ up j := by
  constructor
  · intro hnow
    refine Test.poll.partial_correctness up
      (fun k r => k ≤ r ∧ up r ∧ ∀ j, k ≤ j → j < r → ¬ up j) (fun loop ih k r hnow => ?_) k r hnow
    split at hnow
    · next hup =>
      obtain rfl := Option.some.inj hnow
      exact ⟨Nat.le_refl _, hup, fun j hj hjk => absurd hjk (Nat.not_lt.mpr hj)⟩
    · next hup =>
      obtain ⟨hle, hr, hall⟩ := ih _ _ hnow
      refine ⟨by omega, hr, fun j hj hjr => ?_⟩
      by_cases heq : j = k
      · rw [heq]
        exact hup
      · exact hall j (by omega) hjr
  · intro h
    obtain ⟨hle, hr, hall⟩ := h
    obtain ⟨d, rfl⟩ := Nat.exists_eq_add_of_le hle
    induction d generalizing k with
    | zero =>
      have hr : up k := hr
      rw [poll, if_pos hr]
      rfl
    | succ d ih =>
      rw [poll, if_neg (hall k (Nat.le_refl _) (by omega))]
      have hnext := ih (k := k + 1) (by omega) (by rwa [Nat.add_right_comm]) fun j hj hjr =>
        hall j (by omega) (by omega)
      rw [hnext]
      congr 1
      omega

/-- Two loops return together whose tests say the same as long as the time is not up for one of
them. -/
theorem poll_congr (h : ∀ j, k ≤ j → (∀ i, k ≤ i → i < j → ¬ up i) → up' j = up j) :
    poll up' k = poll up k := by
  have hbefore : ∀ j, k ≤ j →
      ((∀ i, k ≤ i → i < j → ¬ up' i) ↔ ∀ i, k ≤ i → i < j → ¬ up i) := by
    intro j hj
    induction j, hj using Nat.le_induction with
    | base =>
      constructor
      · exact fun _ i hi hik => absurd hik (Nat.not_lt.mpr hi)
      · exact fun _ i hi hik => absurd hik (Nat.not_lt.mpr hi)
    | succ j hj ih =>
      constructor
      · intro hnone i hi hij
        have hup := ih.mp fun i hi hij => hnone i hi (by omega)
        rcases Nat.lt_succ_iff_lt_or_eq.mp hij with hlt | rfl
        · exact hup i hi hlt
        · rw [← h i hi hup]
          exact hnone i hi hij
      · intro hnone i hi hij
        have hup : ∀ i, k ≤ i → i < j → ¬ up i := fun i hi hij => hnone i hi (by omega)
        rcases Nat.lt_succ_iff_lt_or_eq.mp hij with hlt | rfl
        · exact ih.mpr hup i hi hlt
        · rw [h i hi hup]
          exact hnone i hi hij
  apply Option.ext
  intro r
  rw [poll_eq_some, poll_eq_some]
  refine and_congr_right fun hle => ?_
  rw [hbefore r hle]
  exact and_congr_left fun hnone => by rw [h r hle hnone]

end Kvi
