import Mathlib.Tactic
import Mathlib.Data.List.Basic

/-! Doubly linked segments.

A pair of functions `fwd` and `back` links a list of nodes between two end
values `p` and `q`: each node points back to the one before it and forward to
the one after it, the first points back to `p` and the last forward to `q`. The
nodes live anywhere and the links are read through functions, so the same facts
serve a list threaded through memory by any two pointer fields.

Three edits are described by what they do to the two functions on the nodes of
the segment: a node put in front (`Linked.cons`), a node put behind another
(`Linked.insert`), and a node taken out (`Linked.remove`). -/
namespace Kvi

variable {ν : Type} {fwd back fwd' back' : ν → ν} {p q t n : ν} {xs ys ts : List ν}

/-- `ts` is linked both ways, entered from `p` and left towards `q`. -/
def Linked (fwd back : ν → ν) : ν → List ν → ν → Prop
  | _, [], _ => True
  | p, t :: ts, q => back t = p ∧ fwd t = ts.headD q ∧ Linked fwd back t ts q

@[simp] theorem linked_nil : Linked fwd back p [] q := trivial

theorem linked_cons :
    Linked fwd back p (t :: ts) q ↔ back t = p ∧ fwd t = ts.headD q ∧ Linked fwd back t ts q :=
  Iff.rfl

/-- The links of a segment are those of its nodes. -/
theorem Linked.congr (h : Linked fwd back p ts q) (hf : ∀ x ∈ ts, fwd' x = fwd x)
    (hb : ∀ x ∈ ts, back' x = back x) : Linked fwd' back' p ts q := by
  induction ts generalizing p with
  | nil => trivial
  | cons t ts ih =>
    obtain ⟨h1, h2, h3⟩ := h
    refine ⟨by rw [hb t (List.mem_cons_self ..), h1], by rw [hf t (List.mem_cons_self ..), h2], ?_⟩
    exact ih h3 (fun x hx => hf x (List.mem_cons_of_mem _ hx))
      (fun x hx => hb x (List.mem_cons_of_mem _ hx))

/-- A segment in two parts. -/
theorem linked_append :
    Linked fwd back p (xs ++ ys) q ↔
      Linked fwd back p xs (ys.headD q) ∧ Linked fwd back (xs.getLastD p) ys q := by
  induction xs generalizing p with
  | nil => simp
  | cons x xs ih =>
    have hhead : (xs ++ ys).headD q = xs.headD (ys.headD q) := by cases xs <;> rfl
    rw [List.cons_append, linked_cons, linked_cons, ih, hhead, List.getLastD_cons]
    tauto

/-- The two links of a node in the middle. -/
theorem Linked.middle (h : Linked fwd back p (xs ++ t :: ys) q) :
    back t = xs.getLastD p ∧ fwd t = ys.headD q := by
  obtain ⟨_, hb, hf, _⟩ := linked_append.mp h
  exact ⟨hb, hf⟩

theorem headD_mem_or (ys : List ν) (q : ν) : ys.headD q ∈ ys ∨ ys = [] ∧ ys.headD q = q := by
  cases ys with
  | nil => exact .inr ⟨rfl, rfl⟩
  | cons y ys => exact .inl (List.mem_cons_self ..)

theorem getLastD_mem_or (xs : List ν) (p : ν) :
    xs.getLastD p ∈ xs ∨ xs = [] ∧ xs.getLastD p = p := by
  cases xs with
  | nil => exact .inr ⟨rfl, rfl⟩
  | cons x xs =>
    left
    rw [List.getLastD_eq_getLast?, List.getLast?_eq_some_getLast (List.cons_ne_nil x xs)]
    exact List.getLast_mem _

/-- The node before a link that stays inside the segment, and the one after it. -/
theorem Linked.fwd_split (h : Linked fwd back p ts q) (ht : t ∈ ts) (hne : fwd t ≠ q) :
    ∃ xs ys, ts = xs ++ t :: fwd t :: ys := by
  obtain ⟨xs, ys, rfl⟩ := List.append_of_mem ht
  have hf := h.middle.2
  cases ys with
  | nil => exact absurd hf hne
  | cons y ys =>
    rw [List.headD_cons] at hf
    exact ⟨xs, ys, by rw [hf]⟩

theorem Linked.back_split (h : Linked fwd back p ts q) (ht : t ∈ ts) (hne : back t ≠ p) :
    ∃ xs ys, ts = xs ++ back t :: t :: ys := by
  obtain ⟨xs, ys, rfl⟩ := List.append_of_mem ht
  have hb := h.middle.1
  rcases List.eq_nil_or_concat xs with rfl | ⟨xs, l, rfl⟩
  · exact absurd hb hne
  · simp only [List.concat_eq_append, List.getLastD_concat] at hb
    exact ⟨xs, ys, by simp [hb]⟩

/-- Neighbours point at each other. -/
theorem Linked.pair (h : Linked fwd back p (xs ++ t :: n :: ys) q) : fwd t = n ∧ back n = t := by
  have hf := h.middle.2
  have hb := (show Linked fwd back p ((xs ++ [t]) ++ n :: ys) q by simpa using h).middle.1
  simp only [List.getLastD_concat] at hb
  exact ⟨hf, hb⟩

/-- Going forward from a node leads out of the segment or to a node that points back. -/
theorem Linked.fwd_or (h : Linked fwd back p ts q) (ht : t ∈ ts) :
    fwd t = q ∨ fwd t ∈ ts ∧ back (fwd t) = t := by
  by_cases hne : fwd t = q
  · exact .inl hne
  · obtain ⟨xs, ys, hts⟩ := h.fwd_split ht hne
    rw [hts] at h
    exact .inr ⟨by rw [hts]; simp, h.pair.2⟩

/-- Going back from a node leads out of the segment or to a node that points forward. -/
theorem Linked.back_or (h : Linked fwd back p ts q) (ht : t ∈ ts) :
    back t = p ∨ back t ∈ ts ∧ fwd (back t) = t := by
  by_cases hne : back t = p
  · exact .inl hne
  · obtain ⟨xs, ys, hts⟩ := h.back_split ht hne
    rw [hts] at h
    exact .inr ⟨by rw [hts]; simp, h.pair.1⟩

/-- A node does not follow itself. -/
theorem Linked.fwd_ne (h : Linked fwd back p ts q) (nd : ts.Nodup) (hq : q ∉ ts) (ht : t ∈ ts) :
    fwd t ≠ t := by
  obtain ⟨xs, ys, rfl⟩ := List.append_of_mem ht
  have hndt := (List.nodup_append.mp nd).2.1
  rw [h.middle.2]
  intro heq
  rcases headD_mem_or ys q with hm | ⟨_, hm⟩
  · rw [heq] at hm
    exact (List.nodup_cons.mp hndt).1 hm
  · rw [hm] at heq
    exact hq (heq ▸ ht)

/-- A node does not precede itself. -/
theorem Linked.back_ne (h : Linked fwd back p ts q) (nd : ts.Nodup) (hp : p ∉ ts) (ht : t ∈ ts) :
    back t ≠ t := by
  obtain ⟨xs, ys, rfl⟩ := List.append_of_mem ht
  have hdis := (List.nodup_append.mp nd).2.2
  rw [h.middle.1]
  intro heq
  rcases getLastD_mem_or xs p with hm | ⟨_, hm⟩
  · rw [heq] at hm
    exact hdis _ hm _ (List.mem_cons_self ..) rfl
  · rw [hm] at heq
    exact hp (heq ▸ ht)

/-- What is left of a list without repetitions when one entry is taken out. -/
theorem mem_remove_iff {x : ν} (nd : (xs ++ t :: ys).Nodup) :
    x ∈ xs ++ ys ↔ x ∈ xs ++ t :: ys ∧ x ≠ t := by
  have hnot := (List.nodup_cons.mp (List.nodup_middle.mp nd)).1
  rw [List.mem_append, List.mem_append, List.mem_cons]
  constructor
  · intro hx
    refine ⟨hx.imp id .inr, fun heq => hnot ?_⟩
    rw [← heq, List.mem_append]
    exact hx
  · intro ⟨hx, hne⟩
    exact hx.imp id fun h => h.resolve_left hne

/-! ### Edits -/

variable [DecidableEq ν]

/-- A node in front of a segment: it is entered first and the old first points back to it. -/
theorem Linked.cons (h : Linked fwd back p ts q) (nd : ts.Nodup)
    (hn : back' n = p) (hn' : fwd' n = ts.headD q) (hf : ∀ x ∈ ts, fwd' x = fwd x)
    (hb : ∀ x ∈ ts, back' x = if x = ts.headD q then n else back x) :
    Linked fwd' back' p (n :: ts) q := by
  refine ⟨hn, hn', ?_⟩
  cases ts with
  | nil => trivial
  | cons t ts =>
    obtain ⟨_, h2, h3⟩ := h
    have hnot := (List.nodup_cons.mp nd).1
    refine ⟨by rw [hb t (List.mem_cons_self ..)]; simp, ?_, ?_⟩
    · rw [hf t (List.mem_cons_self ..), h2]
    · refine h3.congr (fun x hx => hf x (List.mem_cons_of_mem _ hx)) fun x hx => ?_
      rw [hb x (List.mem_cons_of_mem _ hx), List.headD_cons, if_neg]
      intro heq
      subst heq
      exact hnot hx

/-- A node behind `t`: between it and what followed it. -/
theorem Linked.insert (h : Linked fwd back p (xs ++ t :: ys) q) (nd : (xs ++ t :: ys).Nodup)
    (hq : q ∉ xs ++ t :: ys) (hn : back' n = t) (hn' : fwd' n = fwd t)
    (hf : ∀ x ∈ xs ++ t :: ys, fwd' x = if x = t then n else fwd x)
    (hb : ∀ x ∈ xs ++ t :: ys, back' x = if x = fwd t then n else back x) :
    Linked fwd' back' p (xs ++ t :: n :: ys) q := by
  obtain ⟨hbt, hft⟩ := h.middle
  obtain ⟨hxs, _, _, hys⟩ := linked_append.mp h
  obtain ⟨hndx, hndt, hdis⟩ := List.nodup_append.mp nd
  obtain ⟨htys, hndys⟩ := List.nodup_cons.mp hndt
  have hfwd : ∀ x ∈ xs ++ [t], x ≠ fwd t := by
    intro x hx heq
    subst heq
    rw [hft] at hx
    rcases headD_mem_or ys q with hm | ⟨_, hm⟩
    · rcases List.mem_append.mp hx with hx | hx
      · exact hdis _ hx _ (List.mem_cons_of_mem _ hm) rfl
      · rw [List.mem_singleton.mp hx] at hm
        exact htys hm
    · rw [hm] at hx
      exact hq (by simp only [List.mem_append, List.mem_cons] at hx ⊢; tauto)
  rw [linked_append, linked_cons, linked_cons]
  refine ⟨?_, ?_, ?_, hn, by rw [hn', hft], ?_⟩
  · refine hxs.congr (fun x hx => ?_) fun x hx => ?_
    · rw [hf x (by simp [hx]), if_neg]
      intro heq
      subst heq
      exact hdis _ hx _ (List.mem_cons_self ..) rfl
    · rw [hb x (by simp [hx]), if_neg (hfwd x (by simp [hx]))]
  · rw [hb t (by simp), if_neg (hfwd t (by simp)), hbt]
  · rw [hf t (by simp), if_pos rfl, List.headD_cons]
  · -- only the first of `ys` sees the new node
    cases ys with
    | nil => trivial
    | cons y ys =>
      rw [List.headD_cons] at hft
      obtain ⟨_, hfy, hrest⟩ := hys
      refine ⟨by rw [hb y (by simp), if_pos hft.symm], ?_, ?_⟩
      · rw [hf y (by simp), if_neg, hfy]
        intro heq
        subst heq
        exact htys (List.mem_cons_self ..)
      · refine hrest.congr (fun x hx => ?_) fun x hx => ?_
        · rw [hf x (by simp [hx]), if_neg]
          intro heq
          subst heq
          exact htys (List.mem_cons_of_mem _ hx)
        · rw [hb x (by simp [hx]), if_neg]
          intro heq
          subst heq
          rw [hft] at hx
          exact (List.nodup_cons.mp hndys).1 hx

/-- A node taken out: its two neighbours are linked to each other. -/
theorem Linked.remove (h : Linked fwd back p (xs ++ t :: ys) q) (nd : (xs ++ t :: ys).Nodup)
    (hp : p ∉ xs ++ t :: ys) (hq : q ∉ xs ++ t :: ys)
    (hf : ∀ x ∈ xs ++ ys, fwd' x = if x = back t then fwd t else fwd x)
    (hb : ∀ x ∈ xs ++ ys, back' x = if x = fwd t then back t else back x) :
    Linked fwd' back' p (xs ++ ys) q := by
  obtain ⟨hbt, hft⟩ := h.middle
  obtain ⟨hndx, hndt, hdis⟩ := List.nodup_append.mp nd
  obtain ⟨htys, hndys⟩ := List.nodup_cons.mp hndt
  -- the successor of `t` is not before it, its predecessor not behind it
  have hfwd : ∀ x ∈ xs, x ≠ fwd t := by
    intro x hx heq
    subst heq
    rw [hft] at hx
    rcases headD_mem_or ys q with hm | ⟨_, hm⟩
    · exact hdis _ hx _ (List.mem_cons_of_mem _ hm) rfl
    · rw [hm] at hx
      exact hq (by simp [hx])
  have hback : ∀ y ∈ ys, y ≠ back t := by
    intro y hy heq
    subst heq
    rw [hbt] at hy
    rcases getLastD_mem_or xs p with hm | ⟨_, hm⟩
    · exact hdis _ hm _ (List.mem_cons_of_mem _ hy) rfl
    · rw [hm] at hy
      exact hp (by simp [hy])
  obtain ⟨hxs, _, _, hys⟩ := linked_append.mp h
  refine linked_append.mpr ⟨?_, ?_⟩
  · rcases List.eq_nil_or_concat xs with rfl | ⟨xs, l, rfl⟩
    · trivial
    · simp only [List.concat_eq_append, List.getLastD_concat] at hxs hndx hf hb hbt hfwd ⊢
      obtain ⟨hpre, hlb, _, _⟩ := linked_append.mp hxs
      have hnd := List.nodup_append.mp hndx
      refine linked_append.mpr ⟨?_, ?_, ?_, trivial⟩
      · refine hpre.congr (fun x hx => ?_) fun x hx => ?_
        · rw [hf x (by simp [hx]), if_neg]
          rw [hbt]
          exact hnd.2.2 x hx l (by simp)
        · rw [hb x (by simp [hx]), if_neg (hfwd x (by simp [hx]))]
      · rw [hb l (by simp), if_neg (hfwd l (by simp)), hlb]
      · rw [hf l (by simp), if_pos hbt.symm, hft]
        rfl
  · cases ys with
    | nil => trivial
    | cons y ys =>
      obtain ⟨_, hfy, hrest⟩ := hys
      rw [List.headD_cons] at hft
      refine ⟨?_, ?_, ?_⟩
      · rw [hb y (by simp), if_pos hft.symm, hbt]
      · rw [hf y (by simp), if_neg (hback y (by simp)), hfy]
      · refine hrest.congr (fun x hx => ?_) fun x hx => ?_
        · rw [hf x (by simp [hx]), if_neg (hback x (by simp [hx]))]
        · rw [hb x (by simp [hx]), if_neg]
          intro heq
          subst heq
          rw [hft] at hx
          exact (List.nodup_cons.mp hndys).1 hx

end Kvi
