import Mathlib.Tactic

/-! Exchange sort.

The sort compares every position with every later one and swaps when they are in
the wrong order. One run of the inner loop leaves at its position something that
is nowhere above what lies behind it (`Selected`); the positions before it are
not touched, and what was below everything from there on still is. So each turn
of the outer loop settles one more position. -/
namespace Kvi

variable {α : Type} {n : Nat}

/-- The positions after `p`, in order. -/
def after (p : Fin n) : List (Fin n) := (List.finRange n).drop (p + 1)

/-- The exchange of two positions that are in the wrong order. -/
def exchange (gt : α → α → Bool) (p : Fin n) (v : Vector α n) (q : Fin n) : Vector α n :=
  if gt v[p] v[q] then v.swap p q else v

/-- Every position against every later one. -/
def exchangeSort (gt : α → α → Bool) (v : Vector α n) : Vector α n :=
  (List.finRange n).foldl (fun v p => (after p).foldl (exchange gt p) v) v

theorem mem_after {p q : Fin n} : q ∈ after p ↔ p < q := by
  rw [after, List.mem_drop_iff_getElem]
  constructor
  · intro ⟨j, hj, heq⟩
    rw [List.getElem_finRange] at heq
    rw [← heq, Fin.lt_def]
    show p.val < p.val + 1 + j
    omega
  · intro hlt
    rw [Fin.lt_def] at hlt
    have hq := q.isLt
    refine ⟨q - (p + 1), by rw [List.length_finRange]; omega, ?_⟩
    rw [List.getElem_finRange]
    apply Fin.ext
    show p.val + 1 + (q.val - (p.val + 1)) = q.val
    omega

theorem nodup_after (p : Fin n) : (after p).Nodup :=
  (List.nodup_finRange n).sublist (List.drop_sublist _ _)

variable {β : Type} [LinearOrder β] {key : α → β} {gt : α → α → Bool} {v v' : Vector α n}
  {p q : Fin n} {qs : List (Fin n)}

/-- What the inner loop over `qs` does. -/
structure Selected (key : α → β) (p : Fin n) (qs : List (Fin n)) (v v' : Vector α n) : Prop where
  perm : v'.Perm v
  rest : ∀ r : Fin n, r ≠ p → r ∉ qs → v'[r] = v[r]
  down : key v'[p] ≤ key v[p]
  least : ∀ q ∈ qs, key v'[p] ≤ key v'[q]
  above : ∀ b, b ≤ key v[p] → (∀ q ∈ qs, b ≤ key v[q]) →
    b ≤ key v'[p] ∧ ∀ q ∈ qs, b ≤ key v'[q]

section
variable (hgt : ∀ x y, gt x y = true ↔ key y < key x)
include hgt

/-- One exchange. -/
theorem selected_exchange : Selected key p [q] v (exchange gt p v q) := by
  rw [exchange]
  split
  · next hswap =>
    have hlt := (hgt _ _).mp hswap
    have hp : (v.swap p q)[p] = v[q] := Vector.getElem_swap_left ..
    have hq : (v.swap p q)[q] = v[p] := Vector.getElem_swap_right ..
    refine ⟨Vector.swap_perm .., fun r hrp hrq => ?_, ?_, fun r hr => ?_, fun b hbp hbq => ⟨?_, ?_⟩⟩
    · rw [List.mem_singleton] at hrq
      exact Vector.getElem_swap_of_ne (fun heq => hrp (Fin.ext heq)) fun heq => hrq (Fin.ext heq)
    · rw [hp]
      exact le_of_lt hlt
    · rw [List.mem_singleton.mp hr, hp, hq]
      exact le_of_lt hlt
    · rw [hp]
      exact hbq q (List.mem_singleton.mpr rfl)
    · intro r hr
      rw [List.mem_singleton.mp hr, hq]
      exact hbp
  · next hswap =>
    have hle : key v[p] ≤ key v[q] := not_lt.mp (mt (hgt _ _).mpr hswap)
    refine ⟨.refl _, fun _ _ _ => rfl, le_refl _, fun r hr => ?_, fun b hbp hbq => ⟨hbp, hbq⟩⟩
    rw [List.mem_singleton.mp hr]
    exact hle

/-- The inner loop. -/
theorem selected_foldl (hp : p ∉ qs) (hnd : qs.Nodup) :
    Selected key p qs v (qs.foldl (exchange gt p) v) := by
  induction qs generalizing v with
  | nil =>
    exact ⟨.refl _, fun _ _ _ => rfl, le_refl _, nofun, fun b hbp _ => ⟨hbp, nofun⟩⟩
  | cons q qs ih =>
    have hpq : p ≠ q := List.ne_of_not_mem_cons hp
    have hpqs : p ∉ qs := List.not_mem_of_not_mem_cons hp
    obtain ⟨hq, hnd⟩ := List.nodup_cons.mp hnd
    have h₁ := selected_exchange (v := v) (p := p) (q := q) hgt
    have h₂ := ih (v := exchange gt p v q) hpqs hnd
    rw [List.foldl_cons]
    generalize exchange gt p v q = v₁ at h₁ h₂ ⊢
    generalize qs.foldl (exchange gt p) v₁ = v₂ at h₂ ⊢
    have hsame : v₂[q] = v₁[q] := h₂.rest q (Ne.symm hpq) hq
    refine ⟨h₂.perm.trans h₁.perm, fun r hrp hr => ?_, le_trans h₂.down h₁.down, fun r hr => ?_,
      fun b hbp hb => ?_⟩
    · have hrq : r ≠ q := List.ne_of_not_mem_cons hr
      rw [h₂.rest r hrp (List.not_mem_of_not_mem_cons hr),
        h₁.rest r hrp (by rwa [List.mem_singleton])]
    · rcases List.mem_cons.mp hr with rfl | hr
      · rw [hsame]
        exact le_trans h₂.down (h₁.least r (List.mem_singleton.mpr rfl))
      · exact h₂.least r hr
    · obtain ⟨hbp₁, hbq₁⟩ := h₁.above b hbp fun r hr => hb r (by
        rw [List.mem_singleton.mp hr]
        exact List.mem_cons_self ..)
      obtain ⟨hbp₂, hbqs₂⟩ := h₂.above b hbp₁ fun r hr => by
        have hrp : r ≠ p := fun heq => hpqs (heq ▸ hr)
        have hrq : r ∉ [q] := fun hm => hq (List.mem_singleton.mp hm ▸ hr)
        rw [h₁.rest r hrp hrq]
        exact hb r (List.mem_cons_of_mem _ hr)
      refine ⟨hbp₂, fun r hr => ?_⟩
      rcases List.mem_cons.mp hr with rfl | hr
      · rw [hsame]
        exact hbq₁ r (List.mem_singleton.mpr rfl)
      · exact hbqs₂ r hr

/-- The outer loop from position `m` on, when the positions before are settled. -/
theorem exchangeSort_from {m : Nat} (hm : m ≤ n)
    (hdone : ∀ i j : Fin n, i.val < m → i < j → key v[i] ≤ key v[j]) :
    ∃ v', ((List.finRange n).drop m).foldl (fun v p => (after p).foldl (exchange gt p) v) v = v' ∧
      v'.Perm v ∧ ∀ i j : Fin n, i < j → key v'[i] ≤ key v'[j] := by
  obtain ⟨k, hk⟩ := Nat.exists_eq_add_of_le hm
  induction k generalizing m v with
  | zero =>
    have hend : (List.finRange n).drop m = [] :=
      List.drop_eq_nil_of_le (by rw [List.length_finRange]; omega)
    rw [hend]
    exact ⟨v, rfl, .refl _, fun i j hij => hdone i j (by omega) hij⟩
  | succ k ih =>
    have hlt : m < (List.finRange n).length := by
      rw [List.length_finRange]
      omega
    rw [List.drop_eq_getElem_cons hlt, List.foldl_cons, List.getElem_finRange]
    obtain ⟨p, hp⟩ : ∃ p : Fin n, p = ⟨m, by omega⟩ := ⟨_, rfl⟩
    have hpm : p.val = m := by rw [hp]
    have hself : p ∉ after p := fun h => absurd (mem_after.mp h) (lt_irrefl _)
    have hsel := selected_foldl (v := v) hgt hself (nodup_after p)
    show ∃ v', (List.drop (m + 1) (List.finRange n)).foldl _
      ((after (⟨m, _⟩ : Fin n)).foldl (exchange gt ⟨m, _⟩) v) = v' ∧ _
    rw [← hp]
    generalize (after p).foldl (exchange gt p) v = v₁ at hsel ⊢
    have hbefore : ∀ i : Fin n, i < p → v₁[i] = v[i] := fun i hi =>
      hsel.rest i (ne_of_lt hi) fun h => absurd (mem_after.mp h) (not_lt.mpr (le_of_lt hi))
    obtain ⟨v', heq, hperm, hsorted⟩ := ih (v := v₁) (m := m + 1) (by omega)
      (fun i j hi hij => by
        by_cases hip : i = p
        · rw [hip] at hij ⊢
          exact hsel.least j (mem_after.mpr hij)
        · have hilt : i < p := by
            rw [Fin.lt_def]
            have := Fin.val_ne_of_ne hip
            omega
          rw [hbefore i hilt]
          have habove := hsel.above (key v[i]) (hdone i p (by omega) hilt) fun q hq =>
            hdone i q (by omega) (lt_trans hilt (mem_after.mp hq))
          rcases lt_trichotomy j p with hj | hj | hj
          · rw [hbefore j hj]
            exact hdone i j (by omega) hij
          · rw [hj]
            exact habove.1
          · exact habove.2 j (mem_after.mpr hj))
      (by omega)
    exact ⟨v', heq, hperm.trans hsel.perm, hsorted⟩

/-- The array is sorted, and it is the same array but for the order. -/
theorem exchangeSort_spec (v : Vector α n) :
    (exchangeSort gt v).Perm v ∧
      (exchangeSort gt v).toList.Pairwise fun x y => key x ≤ key y := by
  obtain ⟨v', heq, hperm, hsorted⟩ := exchangeSort_from (v := v) hgt (Nat.zero_le n) nofun
  have hv : exchangeSort gt v = v' := heq
  rw [hv]
  refine ⟨hperm, List.pairwise_iff_getElem.mpr fun i j hi hj hij => ?_⟩
  rw [Vector.length_toList] at hi hj
  have h := hsorted ⟨i, hi⟩ ⟨j, hj⟩ hij
  simpa using h

end
end Kvi
