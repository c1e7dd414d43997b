import Kvi.Library.Runs
import Mathlib.Logic.Function.Basic

/-! Parties that share something only one of them may have.

Each party has a part of its own, and a step of it changes this part and what is
shared (`Step`). A `Handover` is what the steps of a single party owe for that one
never comes into possession while another one has: a party that has can give up,
one that has not can take what is free, and what is shared says which of the two
is possible. Then there is at any time one owner or none (`Owned`), whatever the
order of the steps, and every run is one of the owner alone (`refines`). -/
namespace Kvi

/-- The part of each party, and what they share. -/
structure Parties (P L S : Type*) where
  own : P → L
  shared : S

namespace Parties
variable {P L S : Type*} {x x' : Parties P L S} {ps : List P} {p q : P} {o : Option P}

/-- One party takes a step. -/
inductive Step [DecidableEq P] (act : L → S → L → S → Prop) : Parties P L S → P → Parties P L S → Prop
  where
  | mk {x : Parties P L S} {p : P} {l : L} {s : S} (now : act (x.own p) x.shared l s) :
      Step act x p ⟨Function.update x.own p l, s⟩

/-- The owner alone: nobody, or the one party that has taken and not given up. -/
inductive Pass : Option P → P → Option P → Prop where
  | take (p : P) : Pass none p (some p)
  | give (p : P) : Pass (some p) p none

/-- What a step of a party does about it. -/
inductive Deed (had has taken taken' : Prop) : Prop where
  | leave (own : has ↔ had) (shared : taken' ↔ taken)
  | take (before : ¬ had) (after : has) (free : ¬ taken) (now : taken')
  | give (before : had) (after : ¬ has) (free : ¬ taken')

/-- What the steps of one party owe, so far as `Sane` and `Good` hold. -/
structure Handover (act : L → S → L → S → Prop) (Sane : S → Prop) (Good Has : L → Prop)
    (Taken : S → Prop) : Prop where
  sane : ∀ {l s l' s'}, act l s l' s' → Sane s → Good l → Sane s'
  good : ∀ {l s l' s'}, act l s l' s' → Sane s → Good l → Good l'
  deed : ∀ {l s l' s'}, act l s l' s' → Sane s → Good l → (Has l → Taken s) →
    Deed (Has l) (Has l') (Taken s) (Taken s')

/-- `o` has it, and nobody else. -/
structure Owned (Sane : S → Prop) (Good Has : L → Prop) (Taken : S → Prop) (x : Parties P L S)
    (o : Option P) : Prop where
  sane : Sane x.shared
  good : ∀ p, Good (x.own p)
  has : ∀ p, Has (x.own p) ↔ o = some p
  taken : Taken x.shared ↔ o ≠ none

variable {act : L → S → L → S → Prop} {Sane : S → Prop} {Good Has : L → Prop} {Taken : S → Prop}

theorem Owned.unique (h : Owned Sane Good Has Taken x o) (hp : Has (x.own p)) (hq : Has (x.own q)) :
    p = q :=
  Option.some.inj (((h.has p).mp hp).symm.trans ((h.has q).mp hq))

theorem Owned.taken_of_has (h : Owned Sane Good Has Taken x o) (hp : Has (x.own p)) :
    Taken x.shared := by
  rw [h.taken, (h.has p).mp hp]
  nofun

/-- At the start nobody has it. -/
theorem Owned.start (hsane : Sane x.shared) (hgood : ∀ p, Good (x.own p))
    (hhas : ∀ p, ¬ Has (x.own p)) (htaken : ¬ Taken x.shared) : Owned Sane Good Has Taken x none :=
  ⟨hsane, hgood, fun p => iff_of_false (hhas p) nofun, iff_of_false htaken fun h => h rfl⟩

variable [DecidableEq P]

/-- After a step of `p` the owner is known from `p` alone. -/
theorem Owned.update {l : L} {s : S} {o' : Option P} (h : Owned Sane Good Has Taken x o)
    (hsane : Sane s) (hgood : Good l) (hhas : Has l ↔ o' = some p)
    (hother : ∀ q, q ≠ p → (o' = some q ↔ o = some q)) (htaken : Taken s ↔ o' ≠ none) :
    Owned Sane Good Has Taken ⟨Function.update x.own p l, s⟩ o' := by
  refine ⟨hsane, fun q => ?_, fun q => ?_, htaken⟩ <;> dsimp only
  · by_cases hq : q = p
    · subst hq
      rwa [Function.update_self]
    · rw [Function.update_of_ne hq]
      exact h.good q
  · by_cases hq : q = p
    · subst hq
      rwa [Function.update_self]
    · rw [Function.update_of_ne hq, hother q hq]
      exact h.has q

/-- A step leaves the owner, or passes on. -/
theorem Owned.step (hh : Handover act Sane Good Has Taken) (h : Owned Sane Good Has Taken x o)
    (hnow : Step act x p x') :
    Owned Sane Good Has Taken x' o ∨ ∃ o', Pass o p o' ∧ Owned Sane Good Has Taken x' o' := by
  cases hnow with
  | @mk l s hnow =>
    have hsane := hh.sane hnow h.sane (h.good p)
    have hgood := hh.good hnow h.sane (h.good p)
    cases hh.deed hnow h.sane (h.good p) h.taken_of_has with
    | leave hown hshared =>
      exact .inl (h.update hsane hgood (hown.trans (h.has p)) (fun _ _ => Iff.rfl)
        (hshared.trans h.taken))
    | take _ hhas hfree hnow =>
      obtain rfl : o = none := by
        by_contra hne
        exact hfree (h.taken.mpr hne)
      refine .inr ⟨some p, .take p, h.update hsane hgood (iff_of_true hhas rfl) (fun q hq => ?_)
        (iff_of_true hnow nofun)⟩
      exact iff_of_false (fun heq => hq (Option.some.inj heq).symm) nofun
    | give hhad hhas hfree =>
      obtain rfl := (h.has p).mp hhad
      refine .inr ⟨none, .give p, h.update hsane hgood (iff_of_false hhas nofun) (fun q hq => ?_)
        (iff_of_false hfree fun hne => hne rfl)⟩
      exact iff_of_false nofun fun heq => hq (Option.some.inj heq).symm

/-- Every run is a run of the owner alone. -/
theorem Owned.refines (hh : Handover act Sane Good Has Taken) (h : Owned Sane Good Has Taken x o)
    (hrun : Steps (Step act) x ps x') :
    ∃ qs o', Steps Pass o qs o' ∧ List.Sublist qs ps ∧ Owned Sane Good Has Taken x' o' := by
  induction hrun generalizing o with
  | nil => exact ⟨[], o, .nil o, .slnil, h⟩
  | @cons x x₁ x' p ps head tail ih =>
    rcases h.step hh head with h₁ | ⟨o₁, hpass, h₁⟩
    · obtain ⟨qs, o', hrun, hsub, h'⟩ := ih h₁
      exact ⟨qs, o', hrun, hsub.cons p, h'⟩
    · obtain ⟨qs, o', hrun, hsub, h'⟩ := ih h₁
      exact ⟨p :: qs, o', .cons hpass hrun, hsub.cons_cons p, h'⟩

end Parties
end Kvi
