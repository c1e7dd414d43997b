import Kvi.Library.Runs
import Mathlib.Logic.Function.Basic

/-! Calls that take turns.

Parties make calls, a call takes several steps on data that all of them share, and
meanwhile the data may change by itself. A `Body` is what a call does. In `Turns` at
most one call goes on at a time; the others wait, and whoever waits may be next. No
party has two calls at once, and each has its calls in the order in which it made
them: those completed, the one in its turn, the one that waits (`order`). -/
namespace Kvi

/-- What a call does. It is made (`enter`) before its turn comes. -/
structure Body (C D : Type*) where
  enter : C → D → D → Prop
  step : C → D → C → D → Prop
  done : C → D → Prop
  env : D → D → Prop

/-- A call, as it was made and as far as it is. -/
structure Turn (P C : Type*) where
  who : P
  call : C
  now : C

structure Turns (P C D : Type*) where
  waiting : P → Option C
  turn : Option (Turn P C)
  data : D
  /-- The calls completed, in order. -/
  log : List (Turn P C)
  /-- What each party has called. -/
  made : P → List C

namespace Turns
variable {P C D : Type*}

def start (d : D) : Turns P C D := ⟨fun _ => none, none, d, [], fun _ => []⟩

/-- The call of `p` in the turn, if the turn is its own. -/
def own [DecidableEq P] (p : P) (turn : Option (Turn P C)) : Option C :=
  (turn.filter (·.who = p)).map Turn.call

/-- The calls of `p` completed. -/
def did [DecidableEq P] (p : P) (log : List (Turn P C)) : List C :=
  (log.filter (·.who = p)).map Turn.call

/-- The parties, in the order in which they took their turns. -/
def took (t : Turns P C D) : List P := (t.log ++ t.turn.toList).map Turn.who

/-- One step of a party, or of the data by itself. -/
inductive Step [DecidableEq P] (b : Body C D) : Turns P C D → Option P → Turns P C D → Prop where
  | env {t : Turns P C D} {d : D} (now : b.env t.data d) : Step b t none {t with data := d}
  | enter {t : Turns P C D} {p : P} {c : C} {d : D} (idle : t.waiting p = none)
      (out : own p t.turn = none) (now : b.enter c t.data d) :
      Step b t (some p) ⟨Function.update t.waiting p (some c), t.turn, d, t.log,
        Function.update t.made p (t.made p ++ [c])⟩
  | take {t : Turns P C D} {p : P} {c : C} (wait : t.waiting p = some c) (free : t.turn = none) :
      Step b t (some p) ⟨Function.update t.waiting p none, some ⟨p, c, c⟩, t.data, t.log, t.made⟩
  | go {t : Turns P C D} {u : Turn P C} {c : C} {d : D} (has : t.turn = some u)
      (now : b.step u.now t.data c d) :
      Step b t (some u.who) {t with turn := some {u with now := c}, data := d}
  | give {t : Turns P C D} {u : Turn P C} (has : t.turn = some u) (done : b.done u.now t.data) :
      Step b t (some u.who) {t with turn := none, log := t.log ++ [u]}

variable [DecidableEq P] {b : Body C D} {t t' : Turns P C D} {as : List (Option P)} {a : Option P}
  {p q : P} {u : Turn P C} {d : D} {log : List (Turn P C)}

@[simp] theorem own_none : own p (none : Option (Turn P C)) = none := rfl

@[simp] theorem own_self : own u.who (some u) = some u.call := by
  simp [own]

theorem own_of_ne (h : p ≠ u.who) : own p (some u) = none := by
  simp [own, Option.filter, Ne.symm h]

@[simp] theorem did_append_self : did u.who (log ++ [u]) = did u.who log ++ [u.call] := by
  simp [did]

theorem did_append_of_ne (h : p ≠ u.who) : did p (log ++ [u]) = did p log := by
  simp [did, Ne.symm h]

/-- What is known of the calls of a party. -/
structure Ordered (t : Turns P C D) (p : P) : Prop where
  made : t.made p = did p t.log ++ ((own p t.turn).toList ++ (t.waiting p).toList)
  one : own p t.turn = none ∨ t.waiting p = none

theorem Ordered.step (h : Ordered t p) (hnow : Step b t a t') : Ordered t' p := by
  obtain ⟨hmade, hone⟩ := h
  cases hnow with
  | env now => exact ⟨hmade, hone⟩
  | @enter q c d idle out now =>
    by_cases hq : p = q
    · subst hq
      simp only [idle, out, Option.toList_none, List.append_nil] at hmade
      exact ⟨by simp [hmade, out], .inl out⟩
    · exact ⟨by simpa [hq] using hmade, by simpa [hq] using hone⟩
  | @take q c wait free =>
    rw [free, own_none] at hmade
    by_cases hq : p = q
    · subst hq
      have hown : own p (some (⟨p, c, c⟩ : Turn P C)) = some c := own_self (u := ⟨p, c, c⟩)
      rw [wait] at hmade
      exact ⟨by simpa [hown] using hmade, .inr (Function.update_self ..)⟩
    · have hown : own p (some (⟨q, c, c⟩ : Turn P C)) = none := own_of_ne (u := ⟨q, c, c⟩) hq
      exact ⟨by simpa [hown, hq] using hmade, .inl hown⟩
  | @go u c d has now =>
    have hown : own p (some {u with now := c}) = own p t.turn := by
      rw [has]
      by_cases hq : p = u.who
      · subst hq
        rw [own_self, own_self (u := {u with now := c})]
      · rw [own_of_ne hq, own_of_ne (u := {u with now := c}) hq]
    exact ⟨by rwa [hown], by rwa [hown]⟩
  | @give u has done =>
    rw [has] at hmade hone
    refine ⟨?_, .inl rfl⟩
    by_cases hq : p = u.who
    · subst hq
      have hidle : t.waiting u.who = none := hone.resolve_left (by simp)
      simpa [hidle] using hmade
    · simpa [did_append_of_ne hq, own_of_ne hq] using hmade

theorem ordered_start : Ordered (start d : Turns P C D) p := ⟨rfl, .inl rfl⟩

/-- No call is lost, made twice or overtaken by a later one of its party. -/
theorem order (h : Steps (Step b) (start d) as t) (p : P) : Ordered t p :=
  h.keeps (I := fun t => Ordered t p) (fun _ _ _ hnow hi => hi.step hnow) ordered_start

end Turns
end Kvi
