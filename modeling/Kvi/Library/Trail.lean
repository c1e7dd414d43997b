import Mathlib.Tactic

/-! Walks that follow a pointer.

A walk goes from a record to the `next` one until it meets `last`. A `Trail` is
what it has visited when it ends there; it is the only one (`unique`), and a
record that is its own next has none (`next_ne`). `Visits` is for walks that may
not end: the records at which the walk does not stop. -/
namespace Kvi

variable {σ : Type*}

/-- The walk from a record ends, and has visited these. -/
inductive Trail (next : σ → σ) (last : σ) : σ → List σ → Prop where
  | done : Trail next last last []
  | visit {e : σ} {es : List σ} (more : e ≠ last) (rest : Trail next last (next e) es) :
      Trail next last e (e :: es)

/-- The walk from a record visits another one. -/
inductive Visits (next : σ → σ) (last : σ) : σ → σ → Prop where
  | here {e : σ} (more : e ≠ last) : Visits next last e e
  | later {e e' : σ} (more : e ≠ last) (rest : Visits next last (next e) e') : Visits next last e e'

namespace Trail
variable {next : σ → σ} {last e e' : σ} {es es' : List σ}

theorem eq_last (h : Trail next last e []) : e = last := by
  cases h with
  | done => rfl

theorem head_eq (h : Trail next last e (e' :: es)) : e' = e := by
  cases h with
  | visit more rest => rfl

theorem tail (h : Trail next last e (e' :: es)) : Trail next last (next e) es := by
  cases h with
  | visit more rest => exact rest

theorem unique (h : Trail next last e es) (h' : Trail next last e es') : es = es' := by
  induction h generalizing es' with
  | done =>
    cases h' with
    | done => rfl
    | visit more rest => exact absurd rfl more
  | visit more rest ih =>
    cases h' with
    | done => exact absurd rfl more
    | visit more' rest' => rw [ih rest']

/-- The walk does not stay where it is. -/
theorem next_ne (h : Trail next last e (e :: es)) : next e ≠ e := by
  intro hstay
  have htail := h.tail
  rw [hstay] at htail
  have heq := congrArg List.length (h.unique htail)
  rw [List.length_cons] at heq
  omega

theorem visits_iff (h : Trail next last e es) : Visits next last e e' ↔ e' ∈ es := by
  induction h with
  | done =>
    refine iff_of_false (fun hv => ?_) List.not_mem_nil
    cases hv with
    | here more => exact more rfl
    | later more rest => exact more rfl
  | visit more rest ih =>
    rw [List.mem_cons, ← ih]
    constructor
    · intro hv
      cases hv with
      | here more => exact .inl rfl
      | later more rest => exact .inr rest
    · intro hv
      rcases hv with rfl | hv
      · exact .here more
      · exact .later more hv

end Trail
end Kvi
