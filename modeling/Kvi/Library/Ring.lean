import Mathlib.Tactic

/-! Rings of slots.

A ring has `n` slots and positions that wrap. It is described by counting: the
`k`-th thing that ever passed through it was in slot `k % n`. Two counts that are
less than `n` apart then have different slots, wrapping by hand is counting on
(`next_mod`), and how far one position is ahead of another is the difference of
the counts (`ahead_mod`), which counting on makes one less (`ahead_next`).
`Holds` says which things are in the ring, from a count on. -/
namespace Kvi.Ring

/-- The position after `i`, wrapped by a comparison. -/
def next (n i : Nat) : Nat := if n ≤ i + 1 then 0 else i + 1

/-- How far position `j` is ahead of position `i`. -/
def ahead (n i j : Nat) : Nat := (j + n - i) % n

/-- The positions from `i` up to `j`, `j` left out. -/
def upto (n i j : Nat) : List Nat := (List.range (ahead n i j)).map fun d => (i + d) % n

variable {n k l d : Nat}

theorem next_mod (hn : 0 < n) : next n (k % n) = (k + 1) % n := by
  have hlt := Nat.mod_lt k hn
  have hmod : (k % n + 1) % n = (k + 1) % n := Nat.mod_add_mod ..
  rw [next, ← hmod]
  split
  · have heq : k % n + 1 = n := by omega
    rw [heq, Nat.mod_self]
  · exact (Nat.mod_eq_of_lt (by omega)).symm

/-- Counts less than `n` apart have different slots. -/
theorem mod_inj (hle : k ≤ l) (hlt : l < k + n) : l % n = k % n ↔ l = k := by
  refine ⟨fun heq => ?_, fun heq => heq ▸ rfl⟩
  have hzero := Nat.sub_mod_eq_zero_of_mod_eq heq
  rw [Nat.mod_eq_of_lt (by omega)] at hzero
  omega

theorem mod_ne (hlt : k < l) (hlt' : l < k + n) : l % n ≠ k % n := by
  intro heq
  have := (mod_inj (Nat.le_of_lt hlt) hlt').mp heq
  omega

theorem ahead_mod (hle : k ≤ l) (hlt : l < k + n) : ahead n (k % n) (l % n) = l - k := by
  have hn : 0 < n := by omega
  have hk := Nat.mod_lt k hn
  obtain ⟨d, rfl⟩ := Nat.exists_eq_add_of_le hle
  have hd : d < n := by omega
  have hmod : (k + d) % n = (k % n + d) % n := (Nat.mod_add_mod ..).symm
  rw [ahead, hmod, Nat.add_sub_cancel_left]
  by_cases hwrap : k % n + d < n
  · rw [Nat.mod_eq_of_lt hwrap, show k % n + d + n - k % n = d + n by omega, Nat.add_mod_right,
      Nat.mod_eq_of_lt hd]
  · have hsum : (k % n + d) % n = k % n + d - n := by
      have hge : n ≤ k % n + d := by omega
      rw [Nat.mod_eq_sub_mod hge, Nat.mod_eq_of_lt (by omega)]
    rw [hsum, show k % n + d - n + n - k % n = d by omega, Nat.mod_eq_of_lt hd]

theorem next_lt (hn : 0 < n) (i : Nat) : next n i < n := by
  rw [next]
  split <;> omega

theorem ahead_self (i : Nat) : ahead n i i = 0 := by
  rw [ahead, Nat.add_sub_cancel_left, Nat.mod_self]

theorem ahead_of_lt {i j : Nat} (hi : i < n) (hj : j < n) :
    ahead n i j = if i ≤ j then j - i else j + n - i := by
  rw [ahead]
  split
  · rw [show j + n - i = j - i + n by omega, Nat.add_mod_right, Nat.mod_eq_of_lt (by omega)]
  · exact Nat.mod_eq_of_lt (by omega)

theorem ahead_lt {i j : Nat} (hn : 0 < n) : ahead n i j < n := Nat.mod_lt _ hn

theorem ahead_eq_zero {i j : Nat} (hi : i < n) (hj : j < n) : ahead n i j = 0 ↔ i = j := by
  rw [ahead_of_lt hi hj]
  split <;> omega

theorem ahead_zero {j : Nat} (hj : j < n) : ahead n 0 j = j := by
  rw [ahead_of_lt (Nat.lt_of_le_of_lt (Nat.zero_le j) hj) hj, if_pos (Nat.zero_le j), Nat.sub_zero]

/-- A position that is somewhere ahead is ahead of the next one by one less. -/
theorem ahead_next {i j : Nat} (hi : i < n) (hj : j < n) (hne : i ≠ j) :
    ahead n i j = ahead n (next n i) j + 1 := by
  have hnext := next_lt (Nat.lt_of_le_of_lt (Nat.zero_le i) hi) i
  rw [ahead_of_lt hi hj, ahead_of_lt hnext hj, next]
  split_ifs <;> omega

theorem upto_mod (hle : k ≤ l) (hlt : l < k + n) :
    upto n (k % n) (l % n) = (List.range (l - k)).map fun d => (k + d) % n := by
  rw [upto, ahead_mod hle hlt]
  apply List.map_congr_left
  intro d _
  exact Nat.mod_add_mod ..

/-! ### What a ring holds -/

/-- The slots hold `xs` from count `k` on. -/
def Holds {α : Type} (n : Nat) (slot : Nat → α) (k : Nat) (xs : List α) : Prop :=
  ∀ i x, xs[i]? = some x → slot ((k + i) % n) = x

section Holds
variable {α : Type} {slot slot' : Nat → α} {x : α} {xs ys : List α}

theorem Holds.nil : Holds n slot k [] := nofun

theorem Holds.left (h : Holds n slot k (xs ++ ys)) : Holds n slot k xs := by
  intro i x hi
  apply h i x
  rwa [List.getElem?_append_left (List.getElem?_eq_some_iff.mp hi).1]

theorem Holds.head (h : Holds n slot k (x :: xs)) : slot (k % n) = x := h 0 x rfl

theorem Holds.tail (h : Holds n slot k (x :: xs)) : Holds n slot (k + 1) xs := by
  intro i y hi
  have := h (i + 1) y (by rwa [List.getElem?_cons_succ])
  rwa [Nat.add_right_comm, Nat.add_assoc]

/-- Another slot than those of `xs` may change. -/
theorem Holds.frame (h : Holds n slot k xs)
    (hslot : ∀ i < xs.length, slot' ((k + i) % n) = slot ((k + i) % n)) : Holds n slot' k xs := by
  intro i x hi
  rw [hslot i (List.getElem?_eq_some_iff.mp hi).1]
  exact h i x hi

/-- The next free slot may change. -/
theorem Holds.free (h : Holds n slot k xs) (hlt : xs.length < n)
    (hslot : ∀ j, j ≠ (k + xs.length) % n → slot' j = slot j) : Holds n slot' k xs :=
  h.frame fun i hi => hslot _ (mod_ne (k := k + i) (l := k + xs.length) (by omega) (by omega)).symm

/-- The next free slot is filled. -/
theorem Holds.snoc (h : Holds n slot k xs) (hslot : slot ((k + xs.length) % n) = x) :
    Holds n slot k (xs ++ [x]) := by
  intro i y hi
  by_cases hlt : i < xs.length
  · rw [List.getElem?_append_left hlt] at hi
    exact h i y hi
  · have hi' := (List.getElem?_eq_some_iff.mp hi).1
    rw [List.length_append, List.length_singleton] at hi'
    obtain rfl : i = xs.length := by omega
    rw [List.getElem?_concat_length] at hi
    rw [hslot, Option.some.inj hi]

/-- Read from the first position up to the one behind the last. -/
theorem Holds.upto (h : Holds n slot k xs) (hl : l = k + xs.length) (hlt : xs.length < n) :
    (Ring.upto n (k % n) (l % n)).map slot = xs := by
  subst hl
  rw [upto_mod (by omega) (by omega), List.map_map, Nat.add_sub_cancel_left]
  apply List.ext_getElem
  · rw [List.length_map, List.length_range]
  · intro i _ hi
    simp only [List.getElem_map, List.getElem_range, Function.comp_apply]
    exact h i xs[i] (List.getElem?_eq_getElem hi)

end Holds
end Kvi.Ring
