import Mathlib.Tactic

/-! Steps that may fail.

An `Attempt` says whether it succeeded and changes the state either way; one that
follows is not made when it has not (`andThen`, `each`). `retry` waits for a
condition with a counter. What is known of an attempt (`Meets`) is when it
succeeds, what it keeps, and what it costs at most; the attempts of a sequence
are known separately, and their costs add up. -/
namespace Kvi

/-- Whether a step has succeeded, and the state it has left. -/
abbrev Attempt (S : Type*) := S → Bool × S

namespace Attempt
variable {S K ι : Type*}

/-- A step that does not fail. -/
def act (f : S → S) : Attempt S := fun s => (true, f s)

def andThen (f g : Attempt S) : Attempt S := fun s => if (f s).1 then g (f s).2 else f s

/-- One after the other, up to the first that fails. -/
def each (f : ι → Attempt S) : List ι → Attempt S
  | [] => act id
  | i :: is => (f i).andThen (each f is)

/-- `while (1) { pause; if (timeout-- < 0) fail; if (up) break; }`, before the `n`-th test. -/
def retry (pause test : S → S) (up : Nat → Bool) (timeout : Int) (n : Nat) : Attempt S := fun s =>
  if timeout < 0 then (false, pause s)
  else if up n then (true, test (pause s))
  else retry pause test up (timeout - 1) (n + 1) (test (pause s))
termination_by (timeout + 1).toNat
decreasing_by omega

/-- The attempt succeeds exactly if `P`; it keeps what `keep` sees and costs `k` at most. -/
structure Meets (keep : S → K) (cost : S → Nat) (f : Attempt S) (k : Nat) (P : Prop) : Prop where
  ok : ∀ s, (f s).1 = true ↔ P
  kept : ∀ s, keep (f s).2 = keep s
  cost_le : ∀ s, cost (f s).2 ≤ cost s + k

section Meets
variable {keep : S → K} {cost : S → Nat} {f g : Attempt S} {j k : Nat} {P Q : Prop}

theorem Meets.act {f : S → S} (hkeep : ∀ s, keep (f s) = keep s)
    (hcost : ∀ s, cost (f s) ≤ cost s) : Meets keep cost (act f) 0 True :=
  ⟨fun _ => iff_of_true rfl trivial, hkeep, hcost⟩

theorem Meets.iff (hf : Meets keep cost f k P) (h : P ↔ Q) : Meets keep cost f k Q :=
  ⟨fun s => (hf.ok s).trans h, hf.kept, hf.cost_le⟩

theorem Meets.andThen (hf : Meets keep cost f j P) (hg : Meets keep cost g k Q) :
    Meets keep cost (f.andThen g) (j + k) (P ∧ Q) := by
  constructor
  · intro s
    have hok := hf.ok s
    rw [Attempt.andThen]
    split
    · next hfs => rw [hg.ok, and_iff_right (hok.mp hfs)]
    · next hfs => exact ⟨fun h => absurd h hfs, fun h => absurd (hok.mpr h.1) hfs⟩
  · intro s
    rw [Attempt.andThen]
    split
    · rw [hg.kept, hf.kept]
    · exact hf.kept s
  · intro s
    have hj := hf.cost_le s
    have hk := hg.cost_le (f s).2
    rw [Attempt.andThen]
    split <;> omega

theorem Meets.each {f : ι → Attempt S} {P : ι → Prop} (hf : ∀ i, Meets keep cost (f i) k (P i))
    (is : List ι) : Meets keep cost (Attempt.each f is) (is.length * k) (∀ i ∈ is, P i) := by
  induction is with
  | nil => exact ⟨fun _ => iff_of_true rfl nofun, fun _ => rfl, fun _ => Nat.le_add_right ..⟩
  | cons i is ih =>
    have h := (hf i).andThen ih
    rw [List.length_cons, Nat.add_mul, Nat.one_mul, Nat.add_comm, List.forall_mem_cons]
    exact h

section Retry
variable {pause test : S → S} {up : Nat → Bool}

theorem retry_out {n : Nat} {timeout : Int} (hout : timeout < 0) (s : S) :
    retry pause test up timeout n s = (false, pause s) := by
  rw [retry, if_pos hout]

theorem retry_test {n : Nat} {timeout : Int} (hleft : 0 ≤ timeout) (s : S) :
    retry pause test up timeout n s = if up n then (true, test (pause s))
      else retry pause test up (timeout - 1) (n + 1) (test (pause s)) := by
  rw [retry, if_neg (not_lt.mpr hleft)]

/-- One test, before whatever comes when it fails. -/
theorem Meets.once {b : Bool} (hpause : ∀ s, keep (pause s) = keep s)
    (htest : ∀ s, keep (test s) = keep s) (hfree : ∀ s, cost (pause s) = cost s)
    (hone : ∀ s, cost (test s) = cost s + 1) (hf : Meets keep cost f k P) :
    Meets keep cost (fun s => if b then (true, test (pause s)) else f (test (pause s))) (k + 1)
      (b ∨ P) := by
  have hkept : ∀ s, keep (test (pause s)) = keep s := fun s => by rw [htest, hpause]
  have hcost : ∀ s, cost (test (pause s)) = cost s + 1 := fun s => by rw [hone, hfree]
  cases b with
  | true => exact ⟨fun _ => iff_of_true rfl (.inl rfl), hkept, fun s => by simp [hcost]⟩
  | false =>
    refine ⟨fun s => ?_, fun s => ?_, fun s => ?_⟩
    · simpa using hf.ok (test (pause s))
    · exact (hf.kept (test (pause s))).trans (hkept s)
    · have hk := hf.cost_le (test (pause s))
      rw [hcost] at hk
      simpa [Nat.add_comm, Nat.add_left_comm] using hk

/-- The test is made `timeout + 1` times at most. -/
theorem Meets.retry (hpause : ∀ s, keep (pause s) = keep s) (htest : ∀ s, keep (test s) = keep s)
    (hfree : ∀ s, cost (pause s) = cost s) (hone : ∀ s, cost (test s) = cost s + 1)
    (timeout n : Nat) :
    Meets keep cost (Attempt.retry pause test up timeout n) (timeout + 1)
      (∃ i ≤ timeout, up (n + i)) := by
  have hstep : ∀ (timeout : Int) (n : Nat), 0 ≤ timeout → Attempt.retry pause test up timeout n =
      fun s => if up n then (true, test (pause s))
        else Attempt.retry pause test up (timeout - 1) (n + 1) (test (pause s)) :=
    fun timeout n hleft => funext fun s => retry_test hleft s
  induction timeout generalizing n with
  | zero =>
    have hout : Attempt.retry pause test up (0 - 1) (n + 1) = fun s => (false, pause s) :=
      funext fun s => retry_out (by decide) s
    have hlast : Meets keep cost (Attempt.retry pause test up (0 - 1) (n + 1)) 0 False := by
      rw [hout]
      exact ⟨fun _ => ⟨nofun, nofun⟩, hpause, fun s => (hfree s).le⟩
    rw [Nat.cast_zero, hstep 0 n (Int.le_refl 0)]
    refine (Meets.once hpause htest hfree hone hlast).iff ?_
    simp
  | succ timeout ih =>
    have hnext := ih (n + 1)
    rw [hstep _ n (Int.natCast_nonneg _), Nat.cast_add_one, Int.add_sub_cancel]
    refine (Meets.once hpause htest hfree hone hnext).iff ?_
    constructor
    · intro h
      rcases h with hup | ⟨i, hi, hup⟩
      · exact ⟨0, Nat.zero_le _, hup⟩
      · exact ⟨i + 1, Nat.succ_le_succ hi, by rwa [Nat.add_right_comm, Nat.add_assoc] at hup⟩
    · intro ⟨i, hi, hup⟩
      cases i with
      | zero => exact .inl hup
      | succ i =>
        refine .inr ⟨i, Nat.le_of_succ_le_succ hi, ?_⟩
        rwa [Nat.add_right_comm, Nat.add_assoc]

end Retry
end Meets
end Attempt
end Kvi
