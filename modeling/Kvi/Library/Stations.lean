import Kvi.Library.Turns

/-! Stations behind one lock.

A `Station` is a component that is called: a call sets it going, it takes some steps,
and it is idle again; meanwhile what is around it may change it too. `Station.Run` is
what one station does when its calls come one at a time. Here a family of stations is
called by any number of parties that take turns, whichever station they call: every
station is in a run of its own, with the calls made of it in the order of the turns
(`turns_alone`). -/
namespace Kvi

structure Station (A S : Type*) where
  /-- What it may be called with. -/
  ok : A → Prop
  call : A → S → S
  step : S → S → Prop
  env : S → S → Prop
  idle : S → Prop

namespace Station

/-- One station and its calls, in order. -/
inductive Run {A S : Type*} (K : Station A S) (s₀ : S) : List A → S → Prop where
  | start : Run K s₀ [] s₀
  | call {as : List A} {s : S} {a : A} (past : Run K s₀ as s) (idle : K.idle s) (ok : K.ok a) :
      Run K s₀ (as ++ [a]) (K.call a s)
  | step {as : List A} {s s' : S} (past : Run K s₀ as s) (now : K.step s s') : Run K s₀ as s'
  | env {as : List A} {s s' : S} (past : Run K s₀ as s) (now : K.env s s') : Run K s₀ as s'

variable {ι P : Type*} {A S : ι → Type*}

/-- A call of the station `i`, before its first step and after it. -/
inductive Job (A : ι → Type*) where
  | ready (i : ι) (a : A i)
  | busy (i : ι)

variable [DecidableEq ι] (K : (i : ι) → Station (A i) (S i))

inductive Enters : Job A → ((i : ι) → S i) → ((i : ι) → S i) → Prop where
  | mk {d : (i : ι) → S i} {i : ι} {a : A i} (ok : (K i).ok a) : Enters (.ready i a) d d

inductive Goes : Job A → ((i : ι) → S i) → Job A → ((i : ι) → S i) → Prop where
  | call {d : (i : ι) → S i} {i : ι} {a : A i} :
      Goes (.ready i a) d (.busy i) (Function.update d i ((K i).call a (d i)))
  | step {d : (i : ι) → S i} {i : ι} {s : S i} (now : (K i).step (d i) s) :
      Goes (.busy i) d (.busy i) (Function.update d i s)

inductive Around : ((i : ι) → S i) → ((i : ι) → S i) → Prop where
  | mk {d : (i : ι) → S i} {i : ι} {s : S i} (now : (K i).env (d i) s) :
      Around d (Function.update d i s)

/-- What is done in a turn. -/
def body : Body (Job A) ((i : ι) → S i) where
  enter := Enters K
  step := Goes K
  done c d := ∃ i, c = .busy i ∧ (K i).idle (d i)
  env := Around K

/-- What the station `i` has been called with in a turn. -/
def begun (i : ι) (u : Turn P (Job A)) : Option (A i) :=
  match u.now, u.call with
  | .busy _, .ready j a => if h : j = i then some (h ▸ a) else none
  | _, _ => none

variable {K} {d : (i : ι) → S i} {i j : ι} {a : A i} {p : P} {u : Turn P (Job A)}

theorem Goes.of_step {s s' : S i} (now : (K i).step s s') :
    Goes K (.busy i) (Function.update d i s) (.busy i) (Function.update d i s') := by
  have hgo : Goes K (.busy i) (Function.update d i s) (.busy i)
      (Function.update (Function.update d i s) i s') := .step (by rwa [Function.update_self])
  rwa [Function.update_idem] at hgo

theorem begun_self : begun i ⟨p, .ready i a, .busy j⟩ = some a := by
  simp [begun]

theorem begun_of_ne {k : ι} (h : i ≠ k) : begun k ⟨p, .ready i a, .busy j⟩ = none := by
  simp [begun, h]

theorem begun_ready {c : Job A} {k : ι} : begun k ⟨p, c, .ready i a⟩ = none := by
  simp [begun]

/-- What is known of the stations. -/
structure Alone [DecidableEq P] (K : (i : ι) → Station (A i) (S i)) (d₀ : (i : ι) → S i)
    (t : Turns P (Job A) ((i : ι) → S i)) : Prop where
  waiting : ∀ p c, t.waiting p = some c → ∃ i a, c = .ready i a ∧ (K i).ok a
  turn : ∀ u, t.turn = some u → ∃ i a, u.call = .ready i a ∧ (K i).ok a ∧
    (u.now = .ready i a ∨ u.now = .busy i)
  log : ∀ u ∈ t.log, ∃ i a, u.call = .ready i a ∧ u.now = .busy i
  idle : ∀ i, (∀ u, t.turn = some u → u.now ≠ .busy i) → (K i).idle (t.data i)
  run : ∀ i, Run (K i) (d₀ i) ((t.log ++ t.turn.toList).filterMap (begun i)) (t.data i)

variable [DecidableEq P] {d₀ : (i : ι) → S i} {t t' : Turns P (Job A) ((i : ι) → S i)}
  {l : Option P} {ls : List (Option P)}

theorem Alone.start (hidle : ∀ i, (K i).idle (d₀ i)) :
    Alone K d₀ (Turns.start d₀ : Turns P (Job A) ((i : ι) → S i)) := by
  refine ⟨fun p c hc => ?_, fun u hu => ?_, fun u hu => ?_, fun i _ => hidle i, fun i => .start⟩
  · cases hc
  · cases hu
  · cases hu

namespace Alone

/-- A station that the turn is not at is idle. -/
theorem idle_of (h : Alone K d₀ t) (has : t.turn = some u) (hne : u.now ≠ .busy j) : (K j).idle (t.data j) := by
  refine h.idle j fun v hv => ?_
  rw [has] at hv
  obtain rfl := Option.some.inj hv
  exact hne

theorem around (h : Alone K d₀ t) (hquiet : ∀ i s s', (K i).env s s' → (K i).idle s → (K i).idle s')
    {d : (i : ι) → S i} (hnow : Around K t.data d) : Alone K d₀ {t with data := d} := by
  cases hnow with
  | @mk i s now =>
    refine ⟨h.waiting, h.turn, h.log, fun j hj => ?_, fun j => ?_⟩
    · by_cases hji : j = i
      · subst hji
        simpa using hquiet _ _ _ now (h.idle _ hj)
      · simpa [hji] using h.idle j hj
    · by_cases hji : j = i
      · subst hji
        simpa using (h.run j).env now
      · simpa [hji] using h.run j

theorem enter (h : Alone K d₀ t) {c : Job A} {d : (i : ι) → S i} (hnow : Enters K c t.data d) :
    Alone K d₀ ⟨Function.update t.waiting p (some c), t.turn, d, t.log,
      Function.update t.made p (t.made p ++ [c])⟩ := by
  cases hnow with
  | @mk _ i a ok =>
    refine ⟨fun q c hc => ?_, h.turn, h.log, h.idle, h.run⟩
    by_cases hq : q = p
    · subst hq
      obtain rfl : _ = c := by simpa using hc
      exact ⟨i, a, rfl, ok⟩
    · exact h.waiting q c (by simpa [hq] using hc)

theorem take (h : Alone K d₀ t) {c : Job A} (hwait : t.waiting p = some c) (hfree : t.turn = none) :
    Alone K d₀ ⟨Function.update t.waiting p none, some ⟨p, c, c⟩, t.data, t.log, t.made⟩ := by
  obtain ⟨i, a, rfl, ok⟩ := h.waiting p c hwait
  refine ⟨fun q c hc => ?_, fun u hu => ?_, h.log, fun j _ => h.idle j fun u hu => ?_, fun j => ?_⟩
  · by_cases hq : q = p
    · subst hq
      simp at hc
    · exact h.waiting q c (by simpa [hq] using hc)
  · obtain rfl := Option.some.inj hu
    exact ⟨i, a, rfl, ok, .inl rfl⟩
  · rw [hfree] at hu
    cases hu
  · have hrun := h.run j
    rw [hfree] at hrun
    simpa [begun_ready] using hrun

/-- The station is called. -/
theorem call (h : Alone K d₀ t) (has : t.turn = some ⟨p, .ready i a, .ready i a⟩) (ok : (K i).ok a) :
    Alone K d₀ {t with
      turn := some ⟨p, .ready i a, .busy i⟩
      data := Function.update t.data i ((K i).call a (t.data i))} := by
  have hidle : (K i).idle (t.data i) := h.idle_of has nofun
  refine ⟨h.waiting, fun u hu => ?_, h.log, fun j hj => ?_, fun j => ?_⟩
  · obtain rfl := Option.some.inj hu
    exact ⟨i, a, rfl, ok, .inr rfl⟩
  · have hji : j ≠ i := by
      intro heq
      rw [heq] at hj
      exact hj _ rfl rfl
    simp only [Function.update_of_ne hji]
    exact h.idle_of has nofun
  · have hrun := h.run j
    rw [has] at hrun
    by_cases hji : j = i
    · subst hji
      simpa [begun_ready, begun_self] using (show Run _ _ (_ ++ [a]) _ from hrun.call hidle ok)
    · simpa [begun_ready, begun_of_ne (Ne.symm hji), hji] using hrun

/-- The station takes a step. -/
theorem access (h : Alone K d₀ t) (has : t.turn = some ⟨p, .ready i a, .busy i⟩) (ok : (K i).ok a) {s : S i}
    (hnow : (K i).step (t.data i) s) :
    Alone K d₀ {t with turn := some ⟨p, .ready i a, .busy i⟩, data := Function.update t.data i s} := by
  refine ⟨h.waiting, fun u hu => ?_, h.log, fun j hj => ?_, fun j => ?_⟩
  · obtain rfl := Option.some.inj hu
    exact ⟨i, a, rfl, ok, .inr rfl⟩
  · have hji : j ≠ i := by
      intro heq
      rw [heq] at hj
      exact hj _ rfl rfl
    simp only [Function.update_of_ne hji]
    exact h.idle_of has fun heq => hji (Job.busy.inj heq).symm
  · have hrun := h.run j
    rw [has] at hrun
    by_cases hji : j = i
    · subst hji
      simpa using hrun.step hnow
    · simpa [hji] using hrun

theorem go (h : Alone K d₀ t) (has : t.turn = some u) {c : Job A} {d : (i : ι) → S i}
    (hnow : Goes K u.now t.data c d) : Alone K d₀ {t with turn := some {u with now := c}, data := d} := by
  obtain ⟨p, call, c₀⟩ := u
  obtain ⟨i, a, hcall, ok, hat⟩ := h.turn _ has
  dsimp only at hcall hat hnow
  subst hcall
  cases hnow with
  | @call _ i' a' =>
    obtain ⟨rfl, heq⟩ := Job.ready.inj (hat.resolve_right nofun)
    obtain rfl := eq_of_heq heq
    exact h.call has ok
  | @step _ i' s now =>
    have hbusy : (Job.busy i' : Job A) = .busy i := hat.resolve_left nofun
    cases hbusy
    exact h.access has ok now

theorem give (h : Alone K d₀ t) (has : t.turn = some u) (hnow : u.now = .busy i)
    (hidle : (K i).idle (t.data i)) : Alone K d₀ {t with turn := none, log := t.log ++ [u]} := by
  refine ⟨h.waiting, fun u hu => ?_, fun v hv => ?_, fun j _ => ?_, fun j => ?_⟩
  · cases hu
  · rcases List.mem_append.mp hv with hv | hv
    · exact h.log v hv
    · obtain rfl := List.mem_singleton.mp hv
      obtain ⟨i', a, hcall, _, hat⟩ := h.turn v has
      rw [hnow] at hat ⊢
      cases hat.resolve_left nofun
      exact ⟨_, a, hcall, rfl⟩
  · by_cases hji : j = i
    · subst hji
      exact hidle
    · refine h.idle_of has fun heq => hji ?_
      rw [hnow] at heq
      exact (Job.busy.inj heq).symm
  · have hrun := h.run j
    rw [has] at hrun
    simpa using hrun

theorem step (h : Alone K d₀ t) (hquiet : ∀ i s s', (K i).env s s' → (K i).idle s → (K i).idle s')
    (hnow : Turns.Step (body K) t l t') : Alone K d₀ t' := by
  cases hnow with
  | env now => exact h.around hquiet now
  | enter idle out now => exact h.enter now
  | take wait free => exact h.take wait free
  | go has now => exact h.go has now
  | give has done =>
    obtain ⟨i, hnow, hidle⟩ := done
    exact h.give has hnow hidle

end Alone

/-- Every station is called one call at a time, in the order of the turns. -/
theorem turns_alone (hidle : ∀ i, (K i).idle (d₀ i))
    (hquiet : ∀ i s s', (K i).env s s' → (K i).idle s → (K i).idle s')
    (h : Steps (Turns.Step (body K)) (Turns.start d₀) ls t) : Alone K d₀ t :=
  h.keeps (I := Alone K d₀) (fun _ _ _ hnow hi => hi.step hquiet hnow) (.start hidle)

end Station
end Kvi
