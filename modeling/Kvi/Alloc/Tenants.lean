import Kvi.Alloc.Guarantees
import Kvi.Library.Runs

/-! A client that keeps its blocks.

A driver gets its memory when its card is found and never gives it back, and shares it with
the card, which reads and writes it at any time. Such blocks can be left out of the
picture: for all other clients the allocator is the store of byte arrays that it is without
them (`Tenant.hidden`), and the blocks stay as their owner left them, whatever the
others do (`Tenant.others`). -/
namespace Kvi.Alloc

namespace Store

/-- The arrays at `ps` are left out. -/
def hide (ps : List Nat) (A : Store) : Store := fun p => if p ∈ ps then none else A p

variable {A A' : Store} {ps : List Nat} {p q n : Nat} {bs : List UInt8} {op : Op}

theorem hide_eq_some : A.hide ps q = some bs ↔ q ∉ ps ∧ A q = some bs := by
  rw [hide]
  split
  · next hq => simp [hq]
  · next hq => simp [hq]

theorem hide_put (hp : p ∉ ps) : (A.put p bs).hide ps = (A.hide ps).put p bs := by
  funext q
  by_cases hq : q = p
  · rw [hq, put_self, hide, if_neg hp, put_self]
  · rw [put_of_ne hq, hide, hide, put_of_ne hq]

theorem hide_drop : (A.drop q).hide ps = (A.hide ps).drop q := by
  funext p
  by_cases hp : p = q
  · rw [hp, drop_self, hide, drop_self, ite_self]
  · rw [drop_of_ne hp, hide, hide, drop_of_ne hp]

theorem Fresh.hide (h : A.Fresh p n) : (A.hide ps).Fresh p n := by
  refine ⟨h.nonnull, ?_, fun q bs hq => h.apart q bs (hide_eq_some.mp hq).2⟩
  rw [Store.hide, h.dead, ite_self]

/-- A request that has nothing to do with the arrays at `ps` is one of the store without them. -/
theorem Step.hide (h : Step op p A A') (hlive : ∀ q ∈ ps, A q ≠ none) (hgiven : ∀ q ∈ ps, ¬ Given q op)
    (hwrite : ∀ a v, op = .write a v → ∀ q ∈ ps, ∀ bs, A q = some bs → a < q ∨ q + bs.length ≤ a) :
    Step op p (A.hide ps) (A'.hide ps) := by
  have hfresh : A p = none → p ∉ ps := fun hdead hp => hlive p hp hdead
  cases h with
  | malloc fresh length =>
    rw [hide_put (hfresh fresh.dead)]
    exact .malloc fresh.hide length
  | calloc fresh =>
    rw [hide_put (hfresh fresh.dead)]
    exact .calloc fresh.hide
  | reallocNull fresh pos length =>
    rw [hide_put (hfresh fresh.dead)]
    exact .reallocNull fresh.hide pos length
  | reallocZero =>
    rw [hide_drop]
    exact .reallocZero
  | realloc live fresh pos length same =>
    rw [hide_put (hfresh fresh.dead), hide_drop]
    exact .realloc (hide_eq_some.mpr ⟨fun hq => hgiven _ hq rfl, live⟩) fresh.hide pos length same
  | free =>
    rw [hide_drop]
    exact .free
  | @write _ q i v bs live inside =>
    have hq : q ∉ ps := by
      intro hq
      rcases hwrite _ _ rfl q hq bs live with hlt | hge
      · omega
      · omega
    rw [hide_put hq]
    exact .write (hide_eq_some.mpr ⟨hq, live⟩) inside

end Store

/-- A call that is given none of the blocks, or a byte written outside of them. -/
def Spares (bs : List Block) : Op → Prop
  | .malloc _ | .calloc _ _ => True
  | .realloc p _ | .free p => ∀ b ∈ bs, b.ptr ≠ p
  | .write a _ => ∀ b ∈ bs, a < b.ptr ∨ b.ptr + b.size ≤ a

/-- A step of the others, which is noted, or bytes of one of the blocks written. -/
inductive Tenancy (src : PageSource) (bs : List Block) : System → Option (Op × Nat) → System → Prop where
  | others {σ σ' : System} {op : Op} {p : Nat} (legal : Legal op σ) (served : Served src op σ)
      (spares : Spares bs op) (now : step src op σ = some (p, σ')) : Tenancy src bs σ (some (op, p)) σ'
  | own {σ : System} {b : Block} {m : Memory} (mem : b ∈ bs)
      (outside : ∀ x, x < b.ptr ∨ b.ptr + b.size ≤ x → m x = σ.heap.mem x) :
      Tenancy src bs σ none ⟨{σ.heap with mem := m}, σ.live⟩

/-- Requests of the store and what they return. -/
abbrev Store.Request (A : Store) (e : Op × Nat) (A' : Store) : Prop := Store.Step e.1 e.2 A A'

/-- The blocks are there. -/
structure Tenant (bs : List Block) (σ : System) : Prop where
  sound : ∃ L, Sound σ L
  live : ∀ b ∈ bs, b ∈ σ.live

/-- The second state has the blocks of the first, with the same bytes in them, and `bs`. -/
structure Gains (bs : List Block) (σ σ' : System) : Prop where
  sound : ∃ L, Sound σ' L
  live : σ'.live.Perm (bs ++ σ.live)
  same : ∀ b ∈ σ.live, ∀ x, b.ptr ≤ x → x < b.ptr + b.size → σ'.heap.mem x = σ.heap.mem x

variable {src : PageSource} {σ σ' σ'' : System} {L : Layout} {b c : Block} {bs cs live live' : List Block}
  {ps : List Nat} {m m' : Memory} {op : Op} {p n : Nat} {acts : List (Option (Op × Nat))}

theorem Sound.blocks_apart (h : Sound σ L) (hb : b ∈ σ.live) (hc : c ∈ σ.live) (hne : b.ptr ≠ c.ptr) :
    b.ptr + b.size ≤ c.ptr ∨ c.ptr + c.size ≤ b.ptr := by
  obtain ⟨t, ht, hptr, _, hroom⟩ := h.header b hb
  obtain ⟨u, hu, hptr', _, hroom'⟩ := h.header c hc
  rcases h.inv.regions.apart ht.1 hu.1 with hd | hd | hd
  · omega
  · omega
  · omega

/-- What is left if the same blocks are left out. -/
theorem contents_hide (hnd : (live.map Block.ptr).Nodup) (hnd' : (live'.map Block.ptr).Nodup)
    (hmem : ∀ b, b.ptr ∉ ps → (b ∈ live' ↔ b ∈ live))
    (hsame : ∀ b ∈ live, b.ptr ∉ ps → ∀ x, b.ptr ≤ x → x < b.ptr + b.size → m' x = m x) :
    (contents m' live').hide ps = (contents m live).hide ps := by
  funext p
  rw [Store.hide, Store.hide]
  split
  · rfl
  · next hp =>
    by_cases hlive : ∃ b ∈ live, b.ptr = p
    · obtain ⟨b, hb, rfl⟩ := hlive
      rw [contents_of_mem hnd hb, contents_of_mem hnd' ((hmem b hp).mpr hb), bytes_congr (hsame b hb hp)]
    · have hdead : ∀ b ∈ live, b.ptr ≠ p := fun b hb heq => hlive ⟨b, hb, heq⟩
      have hdead' : ∀ b ∈ live', b.ptr ≠ p := by
        intro b hb heq
        refine hdead b ((hmem b ?_).mp hb) heq
        rwa [heq]
      rw [contents_of_dead hdead, contents_of_dead hdead']

namespace Tenant

/-- The others neither see the blocks nor change them. -/
theorem others (h : Tenant bs σ) (hl : Legal op σ) (hs : Served src op σ) (hspares : Spares bs op)
    (hnow : step src op σ = some (p, σ')) : Tenant bs σ' ∧
      (σ.store.hide (bs.map Block.ptr)).Request (op, p) (σ'.store.hide (bs.map Block.ptr)) ∧
      ∀ b ∈ bs, ∀ x, b.ptr ≤ x → x < b.ptr + b.size → σ'.heap.mem x = σ.heap.mem x := by
  obtain ⟨L, hL⟩ := h.sound
  obtain ⟨p₁, σ₁, L', heq, hL', hstep⟩ := hL.step hl.allowed hs
  obtain ⟨rfl, rfl⟩ := Prod.mk.inj (Option.some.inj (hnow.symm.trans heq))
  have hstore : ∀ b ∈ bs, σ.store b.ptr = some (bytes σ.heap.mem b.ptr b.size) :=
    fun b hb => contents_of_mem hL.nodup (h.live b hb)
  have hgiven : ∀ b ∈ bs, ¬ Given b.ptr op := by
    intro b hb hgiven
    cases op with
    | malloc | calloc | write => exact hgiven
    | realloc | free => exact hspares b hb hgiven.symm
  have hkept : ∀ b ∈ bs, b ∈ σ'.live ∧
      ∀ x, b.ptr ≤ x → x < b.ptr + b.size → σ'.heap.mem x = σ.heap.mem x := by
    intro b hb
    by_cases hop : ∃ a v, op = .write a v
    · obtain ⟨a, v, rfl⟩ := hop
      obtain ⟨_, rfl⟩ := Prod.mk.inj (Option.some.inj hnow)
      refine ⟨h.live b hb, fun x hlo hhi => Function.update_of_ne ?_ ..⟩
      have := hspares b hb
      omega
    · exact untouched hL.nodup hstep (fun a v heq => hop ⟨a, v, heq⟩) (h.live b hb) (hgiven b hb)
  refine ⟨⟨⟨L', hL'⟩, fun b hb => (hkept b hb).1⟩, ?_, fun b hb => (hkept b hb).2⟩
  refine hstep.hide (fun q hq => ?_) (fun q hq => ?_) fun a v heq q hq ds hds => ?_
  · obtain ⟨b, hb, rfl⟩ := List.mem_map.mp hq
    rw [hstore b hb]
    exact Option.some_ne_none _
  · obtain ⟨b, hb, rfl⟩ := List.mem_map.mp hq
    exact hgiven b hb
  · obtain ⟨b, hb, rfl⟩ := List.mem_map.mp hq
    rw [hstore b hb] at hds
    rw [← Option.some.inj hds, length_bytes]
    rw [heq] at hspares
    exact hspares b hb

/-- What is written in one of the blocks stays there. -/
theorem own (h : Tenant bs σ) (hb : b ∈ bs)
    (hm : ∀ x, x < b.ptr ∨ b.ptr + b.size ≤ x → m x = σ.heap.mem x) :
    Tenant bs ⟨{σ.heap with mem := m}, σ.live⟩ ∧
      (contents m σ.live).hide (bs.map Block.ptr) = σ.store.hide (bs.map Block.ptr) := by
  obtain ⟨L, hL⟩ := h.sound
  refine ⟨⟨⟨L, hL.written_live (h.live b hb) hm⟩, h.live⟩, ?_⟩
  refine contents_hide hL.nodup hL.nodup (fun _ _ => Iff.rfl) fun c hc hptr x hlo hhi => hm x ?_
  have hne : b.ptr ≠ c.ptr := by
    intro heq
    exact hptr (heq ▸ List.mem_map_of_mem hb)
  rcases hL.blocks_apart (h.live b hb) hc hne with hd | hd
  · omega
  · omega

/-- For the others, the blocks and what is done in them do not exist. -/
theorem hidden (h : Tenant bs σ) (hrun : Steps (Tenancy src bs) σ acts σ') : Tenant bs σ' ∧
    Steps Store.Request (σ.store.hide (bs.map Block.ptr)) (acts.filterMap id)
      (σ'.store.hide (bs.map Block.ptr)) := by
  induction hrun with
  | nil σ => exact ⟨h, .nil _⟩
  | cons head _ ih =>
    cases head with
    | others legal served spares now =>
      obtain ⟨h₁, hstep, _⟩ := h.others legal served spares now
      obtain ⟨h', hrest⟩ := ih h₁
      exact ⟨h', .cons hstep hrest⟩
    | own mem outside =>
      obtain ⟨h₁, hsame⟩ := h.own mem outside
      obtain ⟨h', hrest⟩ := ih h₁
      refine ⟨h', ?_⟩
      rwa [System.store, hsame] at hrest

end Tenant

namespace Gains

theorem refl (h : Sound σ L) : Gains [] σ σ := ⟨⟨L, h⟩, List.Perm.refl _, fun _ _ _ _ _ => rfl⟩

theorem trans (h : Gains bs σ σ') (h' : Gains cs σ' σ'') : Gains (cs ++ bs) σ σ'' := by
  refine ⟨h'.sound, ?_, fun b hb x hlo hhi => ?_⟩
  · rw [List.append_assoc]
    exact h'.live.trans (h.live.append_left cs)
  · rw [h'.same b (h.live.mem_iff.mpr (List.mem_append_right _ hb)) x hlo hhi, h.same b hb x hlo hhi]

theorem perm (h : Gains bs σ σ') (hperm : bs.Perm cs) : Gains cs σ σ' :=
  ⟨h.sound, h.live.trans (hperm.append_right _), h.same⟩

theorem nodup (h : Gains bs σ σ') : ((bs ++ σ.live).map Block.ptr).Nodup := by
  obtain ⟨L, hL⟩ := h.sound
  exact (h.live.map Block.ptr).nodup_iff.mp hL.nodup

theorem tenant (h : Gains bs σ σ') : Tenant bs σ' :=
  ⟨h.sound, fun _ hb => h.live.mem_iff.mpr (List.mem_append_left _ hb)⟩

/-- A new block. -/
theorem malloc (h : Sound σ L) (hn : Small n) (hnow : step src (.malloc n) σ = some (p, σ'))
    (hg : Granted σ'.heap.calls) : Gains [⟨p, n⟩] σ σ' := by
  have hserved : Served src (.malloc n) σ := by
    intro k hk p' s heq
    obtain rfl := Option.some.inj hk
    obtain ⟨⟨q, s'⟩, hmalloc, hret⟩ := Option.bind_eq_some_iff.mp hnow
    obtain ⟨_, rfl⟩ := Prod.mk.inj (Option.some.inj (heq.symm.trans hmalloc))
    obtain ⟨_, rfl⟩ := Prod.mk.inj (Option.some.inj hret)
    exact hg
  obtain ⟨t, s', L', heq, hh, hL'⟩ := h.call_malloc hn.sized (hserved n rfl)
  have hstep : step src (.malloc n) σ = some (t + 48, ⟨s', ⟨t + 48, n⟩ :: σ.live⟩) := by
    simp only [Alloc.step, heq, Option.bind_eq_bind, Option.bind_some, Sound.note_ptr]
  obtain ⟨rfl, rfl⟩ := Prod.mk.inj (Option.some.inj (hstep.symm.trans hnow))
  refine ⟨⟨L', hL'⟩, List.Perm.refl _, fun b hb x hlo hhi => ?_⟩
  obtain ⟨u, hu, _, hp⟩ := h.payload hb hlo hhi
  exact hh.keeps.payload u hu x hp

/-- Bytes of a new block are written. -/
theorem written (h : Gains bs σ σ') (hb : b ∈ bs)
    (hm : ∀ x, x < b.ptr ∨ b.ptr + b.size ≤ x → m x = σ'.heap.mem x) :
    Gains bs σ ⟨{σ'.heap with mem := m}, σ'.live⟩ := by
  obtain ⟨L, hL⟩ := h.sound
  have hmem : b ∈ σ'.live := h.tenant.live b hb
  refine ⟨⟨L, hL.written_live hmem hm⟩, h.live, fun c hc x hlo hhi => ?_⟩
  have hne : b.ptr ≠ c.ptr := by
    have hnd := h.nodup
    rw [List.map_append] at hnd
    exact fun heq => List.disjoint_of_nodup_append hnd (List.mem_map_of_mem hb) (heq ▸ List.mem_map_of_mem hc)
  show m x = _
  rw [← h.same c hc x hlo hhi]
  refine hm x ?_
  rcases hL.blocks_apart hmem (h.live.mem_iff.mpr (List.mem_append_right _ hc)) hne with hd | hd
  · omega
  · omega

/-- The others have what they had. -/
theorem hide (h : Gains bs σ σ') : σ'.store.hide (bs.map Block.ptr) = σ.store := by
  obtain ⟨L, hL⟩ := h.sound
  have hnd := h.nodup
  rw [List.map_append, List.nodup_append'] at hnd
  obtain ⟨_, hlive, hdis⟩ := hnd
  have hout : ∀ b ∈ σ.live, b.ptr ∉ bs.map Block.ptr := fun b hb hin => hdis hin (List.mem_map_of_mem hb)
  have hself : σ.store.hide (bs.map Block.ptr) = σ.store := by
    funext p
    rw [Store.hide]
    split
    · next hp => exact (contents_of_dead fun b hb heq => hout b hb (by rwa [heq])).symm
    · rfl
  rw [← hself]
  refine contents_hide hlive hL.nodup (fun b hb => ?_) fun b hb _ => h.same b hb
  rw [h.live.mem_iff, List.mem_append]
  exact ⟨fun hor => hor.resolve_left fun hin => hb (List.mem_map_of_mem hin), .inr⟩

end Gains
end Kvi.Alloc
