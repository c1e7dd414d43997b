import Mathlib.Tactic
import Mathlib.Data.List.Basic

/-! Stretches of addresses cut into pieces.

A list of starting addresses and a length for each tile the stretch from `a` to
`e` when every piece starts where the one before it ends, the first at `a`, and
the last ends at `e`. Pieces are then pairwise disjoint (`Tiles.apart`) and
their lengths add up to the whole (`Tiles.sum`). A piece may be cut in two
(`Tiles.split`) and two neighbours may become one (`Tiles.merge`). -/
namespace Kvi

/-- The pieces `ts`, of the lengths `len`, cover `a` to `e` without gap or overlap. -/
def Tiles (len : Nat → Nat) : Nat → List Nat → Nat → Prop
  | a, [], e => a = e
  | a, t :: ts, e => t = a ∧ 0 < len t ∧ Tiles len (a + len t) ts e

instance Tiles.decidable (len : Nat → Nat) : ∀ a ts e, Decidable (Tiles len a ts e)
  | a, [], e => inferInstanceAs (Decidable (a = e))
  | a, t :: ts, e =>
    have := Tiles.decidable len (a + len t) ts e
    inferInstanceAs (Decidable (t = a ∧ 0 < len t ∧ Tiles len (a + len t) ts e))

variable {len len' : Nat → Nat} {a e t u n : Nat} {xs ys ts : List Nat}

theorem tiles_cons :
    Tiles len a (t :: ts) e ↔ t = a ∧ 0 < len t ∧ Tiles len (a + len t) ts e := Iff.rfl

theorem Tiles.congr (h : Tiles len a ts e) (hl : ∀ t ∈ ts, len' t = len t) : Tiles len' a ts e := by
  induction ts generalizing a with
  | nil => exact h
  | cons t ts ih =>
    obtain ⟨h1, h2, h3⟩ := h
    have ht := hl t (List.mem_cons_self ..)
    exact ⟨h1, by rw [ht]; exact h2,
      by rw [ht]; exact ih h3 fun x hx => hl x (List.mem_cons_of_mem _ hx)⟩

/-- Two stretches end to end. -/
theorem tiles_append :
    Tiles len a (xs ++ ys) e ↔ ∃ m, Tiles len a xs m ∧ Tiles len m ys e := by
  induction xs generalizing a with
  | nil => simp [Tiles]
  | cons x xs ih =>
    simp only [List.cons_append, tiles_cons, ih]
    constructor
    · intro h
      obtain ⟨h1, h2, m, h3, h4⟩ := h
      exact ⟨m, ⟨h1, h2, h3⟩, h4⟩
    · intro h
      obtain ⟨m, ⟨h1, h2, h3⟩, h4⟩ := h
      exact ⟨h1, h2, m, h3, h4⟩

theorem Tiles.sum (h : Tiles len a ts e) : a + (ts.map len).sum = e := by
  induction ts generalizing a with
  | nil => exact h
  | cons t ts ih =>
    have := ih h.2.2
    rw [List.map_cons, List.sum_cons]
    omega

/-- The lengths alone say where the pieces lie. -/
theorem Tiles.unique (h : Tiles len a xs e) (h' : Tiles len a ys e) : xs = ys := by
  induction xs generalizing a ys with
  | nil =>
    cases ys with
    | nil => rfl
    | cons y ys =>
      have hsum := h'.sum
      have heq : a = e := h
      obtain ⟨rfl, hpos, _⟩ := h'
      rw [List.map_cons, List.sum_cons] at hsum
      omega
  | cons x xs ih =>
    cases ys with
    | nil =>
      have hsum := h.sum
      have heq : a = e := h'
      obtain ⟨rfl, hpos, _⟩ := h
      rw [List.map_cons, List.sum_cons] at hsum
      omega
    | cons y ys =>
      obtain ⟨rfl, _, hx⟩ := h
      obtain ⟨rfl, _, hy⟩ := h'
      rw [ih hx hy]

/-- Every piece lies inside the stretch. -/
theorem Tiles.within (h : Tiles len a ts e) (ht : t ∈ ts) : a ≤ t ∧ 0 < len t ∧ t + len t ≤ e := by
  induction ts generalizing a with
  | nil => cases ht
  | cons x ts ih =>
    obtain ⟨rfl, h2, h3⟩ := h
    rcases List.mem_cons.mp ht with rfl | ht
    · have := h3.sum
      omega
    · have := ih h3 ht
      omega

/-- Two pieces are the same or do not overlap. -/
theorem Tiles.apart (h : Tiles len a ts e) (ht : t ∈ ts) (hu : u ∈ ts) :
    t = u ∨ t + len t ≤ u ∨ u + len u ≤ t := by
  induction ts generalizing a with
  | nil => cases ht
  | cons x ts ih =>
    obtain ⟨rfl, _, h3⟩ := h
    rcases List.mem_cons.mp ht with rfl | ht' <;> rcases List.mem_cons.mp hu with rfl | hu'
    · exact .inl rfl
    · exact .inr (.inl (h3.within hu').1)
    · exact .inr (.inr (h3.within ht').1)
    · exact ih h3 ht' hu'

theorem Tiles.nodup (h : Tiles len a ts e) : ts.Nodup := by
  induction ts generalizing a with
  | nil => exact List.nodup_nil
  | cons x ts ih =>
    obtain ⟨rfl, h2, h3⟩ := h
    refine List.nodup_cons.mpr ⟨fun hx => ?_, ih h3⟩
    have := h3.within hx
    omega

theorem Tiles.head (h : Tiles len a (t :: ts) e) : t = a := h.1

/-- Neighbours touch. -/
theorem Tiles.adjacent (h : Tiles len a (xs ++ t :: u :: ys) e) : u = t + len t := by
  obtain ⟨m, _, rfl, _, rfl, _, _⟩ := tiles_append.mp h
  rfl

/-- Two neighbours become one piece. -/
theorem Tiles.merge (h : Tiles len a (xs ++ t :: u :: ys) e) (ht : len' t = len t + len u)
    (hl : ∀ x ∈ xs ++ ys, len' x = len x) : Tiles len' a (xs ++ t :: ys) e := by
  obtain ⟨m, hxs, rfl, h1, rfl, h2, hys⟩ := tiles_append.mp h
  refine tiles_append.mpr ⟨t, hxs.congr fun x hx => hl x (by simp [hx]), rfl, by omega, ?_⟩
  rw [ht, ← Nat.add_assoc]
  exact hys.congr fun x hx => hl x (by simp [hx])

/-- A piece is cut in two. -/
theorem Tiles.split (h : Tiles len a (xs ++ t :: ys) e) (hn : n = t + len' t)
    (hsum : len' t + len' n = len t) (ht : 0 < len' t) (hn0 : 0 < len' n)
    (hl : ∀ x ∈ xs ++ ys, len' x = len x) : Tiles len' a (xs ++ t :: n :: ys) e := by
  obtain ⟨m, hxs, rfl, h1, hys⟩ := tiles_append.mp h
  refine tiles_append.mpr ⟨t, hxs.congr fun x hx => hl x (by simp [hx]), rfl, ht, hn, hn0, ?_⟩
  rw [Nat.add_assoc, hsum]
  exact hys.congr fun x hx => hl x (by simp [hx])

end Kvi
