import Kvi.Acpi.Processors
import Kvi.Apic.Startup

/-! Which processors run.

The firmware lists the processors in the MADT, `acpi_create_cpulist` makes a list of
them, and `apic_init` sends its interrupts to the processors of that list. Here the three
are put together. When the loop of `apic_init` is done, the processors that are on their way
are those of the list but its own (`Woken`), whatever the order of the steps. The
list has as many processors as are enabled, from all there are; so these are the right ones
exactly if no processor that is not enabled comes before one that is
(`woken_iff_enabled`). -/
namespace Kvi.Apic
open Alloc Acpi

/-- `cpulist->info[i].apic_id` for `i` below `cpulist->num` -/
def apicIds (l : CpuList) : List UInt8 := (l.info.take l.num).map CpuInfo.apicId

/-- The APIC id of an entry of the MADT. -/
def apicIdAt (m : Memory) (e : Nat) : UInt8 := (cpuInfo m e).apicId

/-- The entry at `e` is that of a processor that can be used, with this id. -/
def Enables (m : Memory) (es : List Nat) (id : UInt8) : Prop := ∃ e ∈ es, enabled m e = true ∧ apicIdAt m e = id

/-- What the loop knows of the processor it is at. -/
def Config.Right (bootApicId : Nat) (c : Config) : Prop :=
  match c.phase with
  | .test => True
  | .boot id => id.toNat = bootApicId
  | .call id | .inside id | .fill id _ => id.toNat ≠ bootApicId
  | .send id ms => id.toNat ≠ bootApicId ∧ id ∈ c.done ∧ ms <:+ ipis

/-- Who is awake: the processors that are done, but not the loop's own, and not one whose interrupts
are still to be sent. -/
structure Woken (bootApicId : Nat) (ids : List UInt8) (c : Config) : Prop where
  order : c.done ++ (c.phase.begun ++ c.todo) = ids
  right : c.Right bootApicId
  done : ∀ id, c.ap id ≠ .halted → id ∈ c.done ∧ id.toNat ≠ bootApicId
  awake : ∀ id ∈ c.done, id.toNat ≠ bootApicId →
    c.ap id ≠ .halted ∨ ∃ ms, c.phase = .send id ms ∧ .startup 8 ∈ ms

variable {src : PageSource} {bootApicId : Nat} {ids : List UInt8} {id : UInt8} {c c' c₀ : Config} {act : Actor}
  {acts : List Actor} {σ : System} {m : Memory} {madt : Nat} {offs es : List Nat} {trace : List (Op × Nat)}

/-! ### The loop -/

theorem suffix_cases {i : Ipi} {is : List Ipi} (h : i :: is <:+ ipis) :
    i = .init ∧ is = [.startup 8, .startup 8] ∨ i = .startup 8 ∧ is <:+ ipis := by
  obtain ⟨pre, hpre⟩ := h
  match pre, hpre with
  | [], hpre => exact .inl (List.cons.inj hpre)
  | [_], hpre =>
    obtain ⟨_, hpre⟩ := List.cons.inj hpre
    obtain ⟨rfl, rfl⟩ := List.cons.inj hpre
    exact .inr ⟨rfl, [.init, .startup 8], rfl⟩
  | [_, _], hpre =>
    obtain ⟨_, hpre⟩ := List.cons.inj hpre
    obtain ⟨_, hpre⟩ := List.cons.inj hpre
    obtain ⟨rfl, rfl⟩ := List.cons.inj hpre
    exact .inr ⟨rfl, ipis, rfl⟩
  | _ :: _ :: _ :: _, hpre =>
    have hlen := congrArg List.length hpre
    simp [ipis] at hlen

theorem deliver_startup {v : Nat} (q : Ap) : q.deliver (.startup v) ≠ .halted := by
  cases q <;> simp [Ap.deliver]

theorem next_ne_halted {stacklist rdi : Nat} {q q' : Ap} (h : q.next stacklist rdi m = some q') :
    q ≠ .halted ∧ q' ≠ .halted := by
  cases q with
  | halted | running => cases h
  | table => exact ⟨by simp, by simp [← Option.some.inj h]⟩
  | scan rbx rsi =>
    refine ⟨by simp, ?_⟩
    rw [Ap.next] at h
    split at h
    · simp [← Option.some.inj h]
    · simp [← Option.some.inj h]
  | take => exact ⟨by simp, by simp [← Option.some.inj h]⟩

namespace Woken

/-- A step of the loop that sends nothing and finishes no record. -/
theorem quiet {st : State} {f : Phase} {rest : List UInt8} (h : Woken bootApicId ids c)
    (hf : ∀ id ms, c.phase = .send id ms → .startup 8 ∉ ms) (horder : f.begun ++ rest = c.phase.begun ++ c.todo)
    (hright : Config.Right bootApicId ⟨st, f, c.done, rest, c.ap⟩) :
    Woken bootApicId ids ⟨st, f, c.done, rest, c.ap⟩ := by
  refine ⟨horder ▸ h.order, hright, h.done, fun id hid hne => .inl ?_⟩
  rcases h.awake id hid hne with hawake | ⟨ms, hphase, hms⟩
  · exact hawake
  · exact absurd hms (hf id ms hphase)

/-- A record is finished. -/
theorem record {st : State} {f : Phase} {rest : List UInt8} (h : Woken bootApicId ids c)
    (hf : ∀ id ms, c.phase ≠ .send id ms) (horder : id :: (f.begun ++ rest) = c.phase.begun ++ c.todo)
    (hright : Config.Right bootApicId ⟨st, f, c.done ++ [id], rest, c.ap⟩)
    (hid : id.toNat = bootApicId ∨ f = .send id ipis) :
    Woken bootApicId ids ⟨st, f, c.done ++ [id], rest, c.ap⟩ := by
  refine ⟨?_, hright, fun id' hrun => ?_, fun id' hid' hne => ?_⟩
  · rw [← h.order, ← horder]
    simp
  · obtain ⟨hin, hne⟩ := h.done id' hrun
    exact ⟨List.mem_append_left _ hin, hne⟩
  · rcases List.mem_append.mp hid' with hin | hin
    · rcases h.awake id' hin hne with hawake | ⟨ms, hphase, _⟩
      · exact .inl hawake
      · exact absurd hphase (hf id' ms)
    · obtain rfl := List.mem_singleton.mp hin
      rcases hid with hboot | hsend
      · exact absurd hboot hne
      · exact .inr ⟨ipis, hsend, by decide⟩

theorem send (h : Woken bootApicId ids c) {i : Ipi} {is : List Ipi} (hphase : c.phase = .send id (i :: is)) :
    Woken bootApicId ids {c with phase := .send id is, ap := Function.update c.ap id ((c.ap id).deliver i)} := by
  have hright := h.right
  rw [Config.Right, hphase] at hright
  obtain ⟨hne, hdone, hsuffix⟩ := hright
  have hother : ∀ id', id' ≠ id → Function.update c.ap id ((c.ap id).deliver i) id' = c.ap id' :=
    fun id' hid' => Function.update_of_ne hid' ..
  have hself : Function.update c.ap id ((c.ap id).deliver i) id = (c.ap id).deliver i :=
    Function.update_self ..
  have horder := h.order
  rw [hphase] at horder
  refine ⟨horder, ⟨hne, hdone, (List.suffix_cons i is).trans hsuffix⟩, fun id' hrun => ?_, fun id' hid' hne' => ?_⟩
  · by_cases heq : id' = id
    · rw [heq]
      exact ⟨hdone, hne⟩
    · dsimp only at hrun
      rw [hother id' heq] at hrun
      exact h.done id' hrun
  · dsimp only
    by_cases heq : id' = id
    · subst heq
      rw [hself]
      rcases suffix_cases hsuffix with ⟨_, rfl⟩ | ⟨rfl, _⟩
      · exact .inr ⟨_, rfl, by decide⟩
      · exact .inl (deliver_startup _)
    · rw [hother id' heq]
      rcases h.awake id' hid' hne' with hawake | ⟨ms, hsend, _⟩
      · exact .inl hawake
      · rw [hphase] at hsend
        exact absurd (Phase.send.inj hsend).1.symm heq

theorem look (h : Woken bootApicId ids c) {q : Ap}
    (hnow : (c.ap id).next c.state.stacklist id.toNat m = some q) :
    Woken bootApicId ids {c with ap := Function.update c.ap id q} := by
  obtain ⟨hbefore, hafter⟩ := next_ne_halted hnow
  refine ⟨h.order, h.right, fun id' hrun => ?_, fun id' hid' hne => ?_⟩
  · by_cases heq : id' = id
    · subst heq
      exact h.done id' hbefore
    · dsimp only at hrun
      rw [Function.update_of_ne heq] at hrun
      exact h.done id' hrun
  · dsimp only
    by_cases heq : id' = id
    · subst heq
      rw [Function.update_self]
      exact .inl hafter
    · rw [Function.update_of_ne heq]
      exact h.awake id' hid' hne

theorem step (h : Woken bootApicId ids c) (hnow : Step src bootApicId c act c') :
    Woken bootApicId ids c' := by
  have hright := h.right
  rw [Config.Right] at hright
  cases hnow with
  | @pokeId id rest phase todo =>
    by_cases hboot : id.toNat = bootApicId
    · rw [if_pos hboot]
      exact h.quiet (by simp [phase]) (by rw [phase, todo]; rfl) hboot
    · rw [if_neg hboot]
      exact h.quiet (by simp [phase]) (by rw [phase, todo]; rfl) hboot
  | bootBase phase =>
    rw [phase] at hright
    exact h.record (by simp [phase]) (by rw [phase]; rfl) trivial (.inl hright)
  | call phase =>
    rw [phase] at hright
    exact h.quiet (by simp [phase]) (by rw [phase]; rfl) hright
  | malloc phase =>
    rw [phase] at hright
    exact h.quiet (by simp [phase]) (by rw [phase]; rfl) hright
  | fill phase =>
    rw [phase] at hright
    exact h.record (by simp [phase]) (by rw [phase]; rfl)
      ⟨hright, List.mem_append_right _ (List.mem_singleton_self _), List.suffix_refl _⟩ (.inr rfl)
  | send phase => exact h.send phase
  | sent phase =>
    refine h.quiet (fun id ms hsend => ?_) (by rw [phase]; rfl) trivial
    rw [phase] at hsend
    rw [← (Phase.send.inj hsend).2]
    exact List.not_mem_nil
  | ap sees now => exact h.look now

theorem enter (hnow : Apic.enter src ids σ = some c) : Woken bootApicId ids c := by
  obtain ⟨⟨p, s⟩, _, hrest⟩ := Option.bind_eq_some_iff.mp hnow
  obtain rfl := Option.some.inj hrest
  exact ⟨rfl, trivial, fun _ hrun => absurd rfl hrun, fun _ hid => absurd hid List.not_mem_nil⟩

/-- When the loop is done, in whatever order the steps were taken. -/
theorem at_end (henter : Apic.enter src ids σ = some c₀) (hrun : Steps (Step src bootApicId) c₀ acts c)
    (hphase : c.phase = .test) (htodo : c.todo = []) (id : UInt8) :
    c.ap id ≠ .halted ↔ id ∈ ids ∧ id.toNat ≠ bootApicId := by
  have h : Woken bootApicId ids c :=
    hrun.keeps (I := Woken bootApicId ids) (fun _ _ _ hnow hi => hi.step hnow) (.enter henter)
  have horder := h.order
  rw [hphase, htodo] at horder
  have hdone : c.done = ids := by simpa [Phase.begun] using horder
  rw [← hdone]
  constructor
  · exact h.done id
  · intro ⟨hid, hne⟩
    rcases h.awake id hid hne with hawake | ⟨ms, hsend, _⟩
    · exact hawake
    · rw [hphase] at hsend
      cases hsend

end Woken

/-! ### The list -/

/-- As many processors as are enabled, from all there are. -/
theorem apicIds_eq (hwell : WellFormed m madt offs)
    (hd : (((entries madt offs).filter (processor m)).map (apicIdAt m)).Nodup) :
    ∃ l, acpiCreateCpulist m madt = some l ∧ apicIds l =
      (((entries madt offs).filter (processor m)).take
        ((entries madt offs).filter (enabled m)).length).map (apicIdAt m) := by
  have hlen := length_lt m madt
  obtain ⟨es, hes⟩ : ∃ es, es = entries madt offs := ⟨_, rfl⟩
  rw [acpiCreateCpulist_eq (trail_of_tiles hwell.tiles (by omega)), ← hes]
  rw [← hes] at hd
  have hle : (es.filter (enabled m)).length ≤ (es.filter (processor m)).length := by
    rw [← filter_enabled]
    exact List.length_filter_le ..
  have hshort := length_le_of_nodup hd
  rw [List.length_map] at hshort
  have hnum : u16 (es.filter (enabled m)).length = (es.filter (enabled m)).length :=
    Nat.mod_eq_of_lt (by omega)
  refine ⟨_, rfl, ?_⟩
  rw [apicIds, hnum, ← List.map_take, List.map_map]
  rfl

/-- The processors taken are the enabled ones if all of them are enabled. -/
theorem take_enabled (h : ∀ e ∈ (es.filter (processor m)).take (es.filter (enabled m)).length,
    enabled m e = true) :
    (es.filter (processor m)).take (es.filter (enabled m)).length = es.filter (enabled m) := by
  have hsub : List.Sublist ((es.filter (processor m)).take (es.filter (enabled m)).length)
      (es.filter (enabled m)) := by
    have hall := List.filter_eq_self.mpr h
    rw [← hall, ← filter_enabled m es]
    exact (List.take_sublist ..).filter _
  refine hsub.eq_of_length ?_
  rw [List.length_take, ← filter_enabled m es]
  exact Nat.min_eq_left (List.length_filter_le ..)

theorem processor_of_enabled {e : Nat} (h : enabled m e = true) : processor m e = true :=
  processor_iff.mpr (enabled_iff.mp h).1

/-- What `apic_init` wakes, in whatever order the steps are taken, are the processors of the list but
its own. These are the enabled processors of the MADT exactly if among its first processors, as many
as are enabled, there is none that is not. -/
theorem woken_iff_enabled (hwell : WellFormed m madt offs)
    (hd : (((entries madt offs).filter (processor m)).map (apicIdAt m)).Nodup)
    (hboot : ∃ id, Enables m (entries madt offs) id ∧ id.toNat = bootApicId) :
    ∃ l, acpiCreateCpulist m madt = some l ∧ ∀ c₀ acts c, enter src (apicIds l) σ = some c₀ →
      Steps (Step src bootApicId) c₀ acts c → c.phase = .test → c.todo = [] →
        (∀ id, c.ap id ≠ .halted ↔ id ∈ apicIds l ∧ id.toNat ≠ bootApicId) ∧
        ((∀ id, c.ap id ≠ .halted ↔ Enables m (entries madt offs) id ∧ id.toNat ≠ bootApicId) ↔
          ∀ e ∈ ((entries madt offs).filter (processor m)).take
            ((entries madt offs).filter (enabled m)).length, enabled m e = true) := by
  obtain ⟨l, hl, hids⟩ := apicIds_eq hwell hd
  obtain ⟨es, hes⟩ : ∃ es, es = entries madt offs := ⟨_, rfl⟩
  rw [← hes] at hids hd hboot
  refine ⟨l, hl, fun c₀ acts c henter hrun hphase htodo => ?_⟩
  have hend := Woken.at_end henter hrun hphase htodo
  refine ⟨hend, ?_⟩
  rw [← hes]
  constructor
  · intro hright e he
    -- the id of the entry is that of an enabled one, and no two processors have one id
    have hmem : e ∈ es.filter (processor m) := List.mem_of_mem_take he
    have hin : apicIdAt m e ∈ apicIds l := by
      rw [hids]
      exact List.mem_map_of_mem he
    obtain ⟨e', he', henabled, hid⟩ : Enables m es (apicIdAt m e) := by
      by_cases hne : (apicIdAt m e).toNat = bootApicId
      · obtain ⟨id, henables, hid⟩ := hboot
        rwa [UInt8.toNat_inj.mp (hne.trans hid.symm)]
      · exact ((hright _).mp ((hend _).mpr ⟨hin, hne⟩)).1
    have hmem' : e' ∈ es.filter (processor m) :=
      List.mem_filter.mpr ⟨he', processor_of_enabled henabled⟩
    rw [← List.inj_on_of_nodup_map hd hmem' hmem hid]
    exact henabled
  · intro hall id
    rw [hend, hids, take_enabled hall]
    refine and_congr_left fun _ => ?_
    rw [List.mem_map]
    constructor
    · intro ⟨e, he, hid⟩
      obtain ⟨hmem, henabled⟩ := List.mem_filter.mp he
      exact ⟨e, hmem, henabled, hid⟩
    · intro ⟨e, he, henabled, hid⟩
      exact ⟨e, List.mem_filter.mpr ⟨he, henabled⟩, hid⟩

/-- Two processors, both enabled. -/
theorem woken_iff_enabled_two : ∃ l c₀ acts c, acpiCreateCpulist (twoEntries 0x100000800 0x101010800) 0x1000 = some l ∧
    enter twoRanges (apicIds l) (boot fun _ => 0) = some c₀ ∧ Steps (Step twoRanges 0) c₀ acts c ∧
    (∀ id, c.ap id ≠ .halted ↔ id ∈ apicIds l ∧ id.toNat ≠ 0) ∧
    ∀ id, c.ap id ≠ .halted ↔
      Enables (twoEntries 0x100000800 0x101010800) (entries 0x1000 [44, 52]) id ∧ id.toNat ≠ 0 := by
  have hwell : WellFormed (twoEntries 0x100000800 0x101010800) 0x1000 [44, 52] := by decide +kernel
  have hboot : ∃ id, Enables (twoEntries 0x100000800 0x101010800) (entries 0x1000 [44, 52]) id ∧ id.toNat = 0 :=
    ⟨0, ⟨0x102c, by decide, by decide +kernel, by decide +kernel⟩, rfl⟩
  have hids : ∀ l, acpiCreateCpulist (twoEntries 0x100000800 0x101010800) 0x1000 = some l → apicIds l = [0, 1] := by
    intro l hl
    rw [acpiCreateCpulist_eq (trail_of_tiles hwell.tiles (by decide +kernel))] at hl
    rw [← Option.some.inj hl]
    decide +kernel
  obtain ⟨l, hl, hwoken⟩ := @woken_iff_enabled twoRanges _ (boot fun _ => 0) _ _ _ hwell (by decide +kernel) hboot
  obtain ⟨a, hnow, _⟩ := two_started
  obtain ⟨c₀, k, henter, hrun⟩ := apicInit_steps hnow
  rw [← hids l hl] at henter
  obtain ⟨hlisted, henabled⟩ := hwoken _ _ _ henter hrun rfl rfl
  exact ⟨l, c₀, _, _, hl, henter, hrun, hlisted, henabled.mpr (by decide +kernel)⟩

end Kvi.Apic
