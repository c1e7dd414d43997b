import Mathlib.Logic.Relation
import Mathlib.Data.List.Count

/-! Runs of a system whose steps are labelled with the party that takes them.

A `Steps` is one order in which the parties have taken their steps. What every
step keeps holds at the end (`keeps`); a step may rely on a condition that is
known of the end only, if no step makes it true (`keeps_while`). A party whose
own steps lower a measure by one, which the others leave alone, takes at most as
many steps as the measure says (`count_add`), and one that is never stuck
comes to the end of it (`exhaust`). -/
namespace Kvi

variable {S A : Type*} {step : S → A → S → Prop} {s s₁ s' : S} {a : A} {as bs : List A}
  {I P : S → Prop} {f : S → Nat}

inductive Steps (step : S → A → S → Prop) : S → List A → S → Prop where
  | nil (s : S) : Steps step s [] s
  | cons {s s₁ s' : S} {a : A} {as : List A} (head : step s a s₁) (tail : Steps step s₁ as s') :
      Steps step s (a :: as) s'

namespace Steps

theorem single (h : step s a s') : Steps step s [a] s' := .cons h (.nil s')

theorem append (h : Steps step s as s₁) (h' : Steps step s₁ bs s') : Steps step s (as ++ bs) s' := by
  induction h with
  | nil => exact h'
  | cons head _ ih => exact .cons head (ih h')

/-- A condition that no step makes true held all along if it holds at the end. -/
theorem before (h : Steps step s as s') (hback : ∀ s a s', step s a s' → P s' → P s) (hp : P s') :
    P s := by
  induction h with
  | nil => exact hp
  | cons head _ ih => exact hback _ _ _ head (ih hp)

theorem keeps_while (h : Steps step s as s') (hback : ∀ s a s', step s a s' → P s' → P s)
    (hstep : ∀ s a s', step s a s' → P s' → I s → I s') (hp : P s') (hs : I s) : I s' := by
  induction h with
  | nil => exact hs
  | cons head tail ih => exact ih hp (hstep _ _ _ head (tail.before hback hp) hs)

theorem keeps (h : Steps step s as s') (hstep : ∀ s a s', step s a s' → I s → I s') (hs : I s) :
    I s' :=
  h.keeps_while (P := fun _ => True) (fun _ _ _ _ _ => trivial)
    (fun s a s' hnow _ hi => hstep s a s' hnow hi) trivial hs

/-- What `f` has lost is the number of steps `a` took. -/
theorem count_add [DecidableEq A] (h : Steps step s as s')
    (hback : ∀ s a s', step s a s' → P s' → P s)
    (hstep : ∀ s a s', step s a s' → P s' → I s → I s')
    (hown : ∀ s s', step s a s' → I s → f s = f s' + 1)
    (hother : ∀ s b s', step s b s' → I s → b ≠ a → f s' = f s) (hp : P s') (hs : I s) :
    as.count a + f s' = f s := by
  induction h with
  | nil => rw [List.count_nil, Nat.zero_add]
  | @cons s s₁ _ b as head tail ih =>
    have hp₁ := tail.before hback hp
    have htail := ih hp (hstep _ _ _ head hp₁ hs)
    by_cases hb : b = a
    · subst hb
      rw [List.count_cons_self, hown _ _ head hs]
      omega
    · rw [List.count_cons_of_ne hb, htail]
      exact hother _ _ _ head hs hb

/-- One party alone comes to where its measure is used up. -/
theorem exhaust (hstep : ∀ s s', step s a s' → I s → I s')
    (hown : ∀ s s', step s a s' → I s → f s = f s' + 1)
    (hgo : ∀ s, I s → f s ≠ 0 → ∃ s', step s a s') (hs : I s) :
    ∃ s', Steps step s (List.replicate (f s) a) s' ∧ I s' ∧ f s' = 0 := by
  obtain ⟨n, hn⟩ : ∃ n, f s = n := ⟨_, rfl⟩
  induction n generalizing s with
  | zero =>
    rw [hn]
    exact ⟨s, .nil s, hs, hn⟩
  | succ n ih =>
    obtain ⟨s₁, hnow⟩ := hgo s hs (by omega)
    have hless := hown s s₁ hnow hs
    obtain ⟨s', hrun, hs', hend⟩ := ih (hstep s s₁ hnow hs) (by omega)
    rw [hless, List.replicate_succ]
    exact ⟨s', .cons hnow hrun, hs', hend⟩

end Steps
end Kvi
