import Kvi.Alloc.Heap
import Mathlib.Data.Set.Insert

/-! What the list and neighbour operations do to the fields of the tags.

As long as the headers in play do not overlap (`Separate`), a store to one field
of one tag is seen by that field of that tag only (`get_set`), so each operation
of `alloc.c` on tags is described by one equation per field it writes. Bytes
outside the headers are left alone by all of them (`Frame`). -/
namespace Kvi.Alloc

variable {T T' : Set Nat} {s s' s'' : Heap} {x y t u p tag left right : Nat} {f g : Field} {v b : Nat}

theorem Field.fits_tag (f : Field) : f.offset + f.width ≤ 48 := by
  cases f <;> decide

theorem Field.disjoint (h : f ≠ g) :
    f.offset + f.width ≤ g.offset ∨ g.offset + g.width ≤ f.offset := by
  cases f <;> cases g <;> first | exact absurd rfl h | decide

/-- Headers at the addresses of `T` are nonnull, inside the address space and disjoint. -/
structure Separate (T : Set Nat) : Prop where
  ne_zero : ∀ t ∈ T, t ≠ 0
  fits : ∀ t ∈ T, t + 48 ≤ 2 ^ 64
  apart : ∀ t ∈ T, ∀ u ∈ T, t = u ∨ t + 48 ≤ u ∨ u + 48 ≤ t

theorem Separate.lt (h : Separate T) (ht : t ∈ T) : t < 2 ^ 64 := by
  have := h.fits t ht
  omega

/-- The header in front of a pointer that was handed out. -/
theorem sub64_tagSize (h : t + 48 < 2 ^ 64) : sub64 (t + 48) tagSize = t := by
  rw [tagSize, sub64_of_le h (by omega)]
  omega

/-- One more header, apart from all the others. -/
theorem Separate.insert (h : Separate T) (h0 : x ≠ 0) (hfits : x + 48 ≤ 2 ^ 64)
    (hapart : ∀ u ∈ T, x + 48 ≤ u ∨ u + 48 ≤ x) : x ∉ T ∧ Separate (insert x T) := by
  refine ⟨fun hm => ?_, ⟨fun u hu => ?_, fun u hu => ?_, fun u hu v hv => ?_⟩⟩
  · rcases hapart _ hm with hd | hd <;> omega
  · rcases Set.mem_insert_iff.mp hu with rfl | hu
    · exact h0
    · exact h.ne_zero u hu
  · rcases Set.mem_insert_iff.mp hu with rfl | hu
    · exact hfits
    · exact h.fits u hu
  · rcases Set.mem_insert_iff.mp hu with rfl | hu'
    · rcases Set.mem_insert_iff.mp hv with rfl | hv'
      · exact .inl rfl
      · exact .inr (hapart v hv')
    · rcases Set.mem_insert_iff.mp hv with rfl | hv'
      · exact .inr (hapart u hu').symm
      · exact h.apart u hu' v hv'

/-- A pointer that may be followed after a test for `NULL`. -/
def Ptr (T : Set Nat) (p : Nat) : Prop := p = 0 ∨ p ∈ T

theorem Ptr.lt (h : Ptr T p) (hT : Separate T) : p < 2 ^ 64 := by
  rcases h with rfl | h
  · decide
  · exact hT.lt h

/-- An address in no header. -/
def Clear (T : Set Nat) (b : Nat) : Prop := ∀ t ∈ T, b < t ∨ t + 48 ≤ b

/-- Only headers of `T` and the bins may differ. -/
structure Frame (T : Set Nat) (s s' : Heap) : Prop where
  mem : ∀ b, Clear T b → s'.mem b = s.mem b
  calls : s'.calls = s.calls
  initialized : s'.initialized = s.initialized

theorem Frame.refl (s : Heap) : Frame T s s := ⟨fun _ _ => rfl, rfl, rfl⟩

theorem Frame.trans (h : Frame T s s') (h' : Frame T s' s'') : Frame T s s'' :=
  ⟨fun b hb => (h'.mem b hb).trans (h.mem b hb), h'.calls.trans h.calls,
    h'.initialized.trans h.initialized⟩

/-! ### One field -/

/-- A header's fields are its bytes. -/
theorem get_congr (h : ∀ b, x ≤ b → b < x + 48 → s'.mem b = s.mem b) : s'.get x f = s.get x f := by
  have hf := f.fits_tag
  exact Memory.load_congr fun b hlo hhi => h b (by omega) (by omega)

theorem get_set (hT : Separate T) (hx : x ∈ T) (hy : y ∈ T) :
    (s.set y f v).get x g = if x = y ∧ g = f then v % 256 ^ f.width else s.get x g := by
  unfold Heap.get Heap.set
  by_cases hxy : x = y
  · by_cases hfg : g = f
    · rw [if_pos ⟨hxy, hfg⟩, hxy, hfg, Memory.load_store_same]
    · have := Field.disjoint hfg
      rw [if_neg fun h => hfg h.2, hxy]
      exact Memory.load_store_disjoint (by omega)
  · have hf := f.fits_tag
    have hg := g.fits_tag
    rw [if_neg fun h => hxy h.1]
    rcases hT.apart x hx y hy with h | h | h
    · exact absurd h hxy
    · exact Memory.load_store_disjoint (by omega)
    · exact Memory.load_store_disjoint (by omega)

theorem get_setThrough (hT : Separate T) (hx : x ∈ T) (hp : Ptr T p) :
    (s.setThrough p f v).get x g = if x = p ∧ g = f then v % 256 ^ f.width else s.get x g := by
  unfold Heap.setThrough
  rcases hp with rfl | hp
  · rw [if_neg (by simp), if_neg fun h => hT.ne_zero x hx h.1]
  · rw [if_pos (hT.ne_zero p hp), get_set hT hx hp]

theorem frame_set (hy : y ∈ T) : Frame T s (s.set y f v) := by
  refine ⟨fun b hb => ?_, rfl, rfl⟩
  have hf := f.fits_tag
  have := hb y hy
  exact Memory.store_outside (by omega)

theorem frame_setThrough (hp : Ptr T p) : Frame T s (s.setThrough p f v) := by
  unfold Heap.setThrough
  rcases hp with rfl | hp
  · rw [if_neg (by simp)]
    exact Frame.refl s
  · split
    · exact frame_set hp
    · exact Frame.refl s

theorem frame_setFreePages {i : Nat} : Frame T s (s.setFreePages i t) := ⟨fun _ _ => rfl, rfl, rfl⟩

theorem frame_addCompletePages {i : Nat} {d : Int} : Frame T s (s.addCompletePages i d) :=
  ⟨fun _ _ => rfl, rfl, rfl⟩

@[simp] theorem get_setFreePages {i : Nat} : (s.setFreePages i t).get x f = s.get x f := rfl

@[simp] theorem get_addCompletePages {i : Nat} {d : Int} :
    (s.addCompletePages i d).get x f = s.get x f := rfl

@[simp] theorem set_freePages : (s.set y f v).freePages = s.freePages := rfl

@[simp] theorem set_completePages : (s.set y f v).completePages = s.completePages := rfl

@[simp] theorem setThrough_freePages : (s.setThrough y f v).freePages = s.freePages := by
  unfold Heap.setThrough
  split <;> rfl

@[simp] theorem setThrough_completePages :
    (s.setThrough y f v).completePages = s.completePages := by
  unfold Heap.setThrough
  split <;> rfl

@[simp] theorem setFreePages_freePages {i : Nat} :
    (s.setFreePages i t).freePages = Function.update s.freePages i t := rfl

@[simp] theorem setFreePages_completePages {i : Nat} :
    (s.setFreePages i t).completePages = s.completePages := rfl

@[simp] theorem addCompletePages_freePages {i : Nat} {d : Int} :
    (s.addCompletePages i d).freePages = s.freePages := rfl

@[simp] theorem addCompletePages_completePages {i : Nat} {d : Int} :
    (s.addCompletePages i d).completePages =
      Function.update s.completePages i (s.completePages i + d) := rfl

theorem index_congr (h : s'.get x .index = s.get x .index) : s'.index x = s.index x := by
  unfold Heap.index
  rw [h]

/-! ### Removal from a bin -/

/-- What `removeTag` needs to know of the tag's links. -/
structure Linkable (T : Set Nat) (s : Heap) (tag : Nat) : Prop where
  mem : tag ∈ T
  next : Ptr T (s.get tag .next)
  prev : Ptr T (s.get tag .prev)
  next_ne : s.get tag .next ≠ tag
  prev_ne : s.get tag .prev ≠ tag

@[simp] theorem get_dropHead : (dropHead tag s).get x f = s.get x f := by
  simp only [dropHead]
  split <;> rfl

theorem frame_dropHead : Frame T s (dropHead tag s) := by
  simp only [dropHead]
  split
  · exact frame_setFreePages
  · exact Frame.refl s

/-- Linking the neighbours leaves the fields of the tag itself alone. -/
theorem Linkable.get_bypassed (hT : Separate T) (h : Linkable T s tag) :
    ((dropHead tag s).setThrough (s.get tag .prev) .next v).get tag f = s.get tag f := by
  rw [get_setThrough hT h.mem h.prev, if_neg, get_dropHead]
  exact fun hc => h.prev_ne hc.1.symm

theorem removeTag_get (hT : Separate T) (h : Linkable T s tag) (hx : x ∈ T) :
    (removeTag tag s).get x f =
      if x = tag ∧ f = .index then 2 ^ 32 - 1
      else if x = tag ∧ (f = .prev ∨ f = .next) then 0
      else if x = s.get tag .next ∧ f = .prev then s.get tag .prev
      else if x = s.get tag .prev ∧ f = .next then s.get tag .next
      else s.get x f := by
  have hnm : s.get tag .next % 256 ^ 8 = s.get tag .next := Nat.mod_eq_of_lt (h.next.lt hT)
  have hpm : s.get tag .prev % 256 ^ 8 = s.get tag .prev := Nat.mod_eq_of_lt (h.prev.lt hT)
  have hminus : ofInt32 (-1) % 256 ^ 4 = 2 ^ 32 - 1 := by decide
  simp only [removeTag, get_dropHead, h.get_bypassed hT, get_set hT hx h.mem,
    get_setThrough hT hx h.next, get_setThrough hT hx h.prev, Field.width, hnm, hpm, hminus]
  by_cases hxt : x = tag <;> cases f <;> simp [hxt]

theorem removeTag_frame (hT : Separate T) (h : Linkable T s tag) : Frame T s (removeTag tag s) := by
  simp only [removeTag, get_dropHead, h.get_bypassed hT]
  exact frame_dropHead.trans <| (frame_setThrough h.prev).trans <| (frame_setThrough h.next).trans <|
    (frame_set h.mem).trans <| (frame_set h.mem).trans (frame_set h.mem)

theorem removeTag_freePages :
    (removeTag tag s).freePages =
      if s.freePages (s.index tag).toNat = tag then
        Function.update s.freePages (s.index tag).toNat (s.get tag .next)
      else s.freePages := by
  simp only [removeTag, set_freePages, setThrough_freePages, dropHead]
  split <;> rfl

@[simp] theorem removeTag_completePages : (removeTag tag s).completePages = s.completePages := by
  simp only [removeTag, set_completePages, setThrough_completePages, dropHead]
  split <;> rfl

/-! ### Insertion into a bin -/

theorem insertTag_get {i : Int} (hT : Separate T) (ht : tag ∈ T)
    (hh : Ptr T (s.freePages (realIndex s tag i).toNat))
    (hne : s.freePages (realIndex s tag i).toNat ≠ tag) (hx : x ∈ T) :
    (insertTag tag i s).get x f =
      if x = tag ∧ f = .index then ofInt32 (realIndex s tag i)
      else if x = tag ∧ f = .next ∧ s.freePages (realIndex s tag i).toNat ≠ 0 then
        s.freePages (realIndex s tag i).toNat
      else if x = s.freePages (realIndex s tag i).toNat ∧ f = .prev then tag
      else s.get x f := by
  have htm : tag % 256 ^ 8 = tag := Nat.mod_eq_of_lt (hT.lt ht)
  have hhm : s.freePages (realIndex s tag i).toNat % 256 ^ 8 =
      s.freePages (realIndex s tag i).toNat := Nat.mod_eq_of_lt (hh.lt hT)
  have him : ofInt32 (realIndex s tag i) % 256 ^ 4 = ofInt32 (realIndex s tag i) :=
    Nat.mod_eq_of_lt (ofInt32_lt _)
  have hx0 := hT.ne_zero x hx
  have ht0 := hT.ne_zero tag ht
  simp only [insertTag, linkHead, set_freePages, get_setFreePages]
  rcases hh with h0 | hh
  · simp only [h0, ne_eq, not_true_eq_false, if_false, get_set hT hx ht, Field.width, him]
    by_cases hxt : x = tag <;> cases f <;> simp [hxt, hx0, ht0]
  · simp only [ne_eq, hT.ne_zero _ hh, not_false_eq_true, if_true, get_set hT hx ht,
      get_set hT hx hh, Field.width, him, hhm, htm]
    by_cases hxt : x = tag <;> cases f <;> simp [hxt, Ne.symm hne]

theorem frame_linkHead {i : Nat} (ht : tag ∈ T) (hh : Ptr T (s.freePages i)) :
    Frame T s (linkHead tag i s) := by
  unfold linkHead
  split
  · rcases hh with h0 | hh
    · contradiction
    · exact (frame_set hh).trans (frame_set ht)
  · exact Frame.refl s

@[simp] theorem linkHead_freePages {i : Nat} : (linkHead tag i s).freePages = s.freePages := by
  unfold linkHead
  split <;> rfl

@[simp] theorem linkHead_completePages {i : Nat} :
    (linkHead tag i s).completePages = s.completePages := by
  unfold linkHead
  split <;> rfl

theorem insertTag_frame {i : Int} (ht : tag ∈ T)
    (hh : Ptr T (s.freePages (realIndex s tag i).toNat)) : Frame T s (insertTag tag i s) :=
  (frame_set ht).trans ((frame_linkHead ht (by exact hh)).trans frame_setFreePages)

theorem insertTag_freePages {i : Int} :
    (insertTag tag i s).freePages =
      Function.update s.freePages (realIndex s tag i).toNat tag := by
  simp only [insertTag, setFreePages_freePages, linkHead_freePages, set_freePages]

@[simp] theorem insertTag_completePages {i : Int} :
    (insertTag tag i s).completePages = s.completePages := by
  simp only [insertTag, setFreePages_completePages, linkHead_completePages, set_completePages]

/-! ### Neighbours -/

/-- Taking over writes the size and right link of `left` and the left link of the next tag. -/
theorem takeOver_get (hT : Separate T) (hl : left ∈ T) (hr : right ∈ T) (hne : left ≠ right)
    (hn : Ptr T (s.get right .splitRight)) (hx : x ∈ T) :
    (takeOver left right s).get x f =
      if x = left ∧ f = .realSize then u32 (s.get left .realSize + s.get right .realSize)
      else if x = left ∧ f = .splitRight then s.get right .splitRight
      else if x = s.get right .splitRight ∧ f = .splitLeft then left
      else s.get x f := by
  have hlm : left % 256 ^ 8 = left := Nat.mod_eq_of_lt (hT.lt hl)
  have hnm : s.get right .splitRight % 256 ^ 8 = s.get right .splitRight :=
    Nat.mod_eq_of_lt (hn.lt hT)
  have hrm : u32 (s.get left .realSize + s.get right .realSize) % 256 ^ 4 =
      u32 (s.get left .realSize + s.get right .realSize) := Nat.mod_eq_of_lt (u32_lt _)
  have hrn : ¬ right = left := fun h => hne h.symm
  simp only [takeOver, get_set hT hr hl, hrn, false_and, if_false, get_set hT hx hl,
    get_setThrough hT hx hn, Field.width, hlm, hnm, hrm]
  by_cases hxl : x = left <;> cases f <;> simp [hxl]

theorem takeOver_frame (hT : Separate T) (hl : left ∈ T) (hr : right ∈ T) (hne : left ≠ right)
    (hn : Ptr T (s.get right .splitRight)) : Frame T s (takeOver left right s) := by
  have hrn : ¬ right = left := fun h => hne h.symm
  simp only [takeOver, get_set hT hr hl, hrn, false_and, if_false]
  exact (frame_set hl).trans ((frame_set hl).trans (frame_setThrough hn))

@[simp] theorem takeOver_freePages : (takeOver left right s).freePages = s.freePages := by
  simp only [takeOver, setThrough_freePages, set_freePages]

@[simp] theorem takeOver_completePages :
    (takeOver left right s).completePages = s.completePages := by
  simp only [takeOver, setThrough_completePages, set_completePages]

/-- The size `split_tag` gives the new tag. -/
def splitSize (tag : Nat) (s : Heap) : Nat :=
  u32 (sub64 (sub64 (s.get tag .realSize) tagSize) (s.get tag .size))

/-- The fields of the tag a cut makes, over what its memory held before. -/
def cutFields (tag realSize right : Nat) (old : Field → Nat) (f : Field) : Nat :=
  if f = .magic then LIBALLOC_MAGIC
  else if f = .realSize then realSize
  else if f = .next ∨ f = .prev then 0
  else if f = .splitLeft then tag
  else if f = .splitRight then right
  else old f

theorem cutTag_get (hT : Separate T) (ht : tag ∈ T) (hn : splitAddr tag s ∈ T)
    (hne : tag ≠ splitAddr tag s) (hr : Ptr T (s.get tag .splitRight))
    (hrt : s.get tag .splitRight ≠ tag) (hrn : s.get tag .splitRight ≠ splitAddr tag s)
    (hx : x ∈ T) :
    (cutTag tag s).get x f =
      if x = splitAddr tag s then
        cutFields tag (splitSize tag s) (s.get tag .splitRight) (s.get x) f
      else if x = tag ∧ f = .splitRight then splitAddr tag s
      else if x = tag ∧ f = .realSize then
        u32 (s.get tag .realSize + 2 ^ 32 - splitSize tag s)
      else if x = s.get tag .splitRight ∧ f = .splitLeft then splitAddr tag s
      else s.get x f := by
  have htn : ¬ splitAddr tag s = tag := fun h => hne h.symm
  have hrt' : ¬ tag = s.get tag .splitRight := fun h => hrt h.symm
  have hrn' : ¬ splitAddr tag s = s.get tag .splitRight := fun h => hrn h.symm
  have hrm : s.get tag .splitRight % 256 ^ 8 = s.get tag .splitRight := Nat.mod_eq_of_lt (hr.lt hT)
  have htm : tag % 256 ^ 8 = tag := Nat.mod_eq_of_lt (hT.lt ht)
  have hnm : splitAddr tag s % 256 ^ 8 = splitAddr tag s := Nat.mod_eq_of_lt (hT.lt hn)
  have hsm : splitSize tag s % 256 ^ 4 = splitSize tag s := Nat.mod_eq_of_lt (u32_lt _)
  have hum : ∀ n, u32 n % 256 ^ 4 = u32 n := fun n => Nat.mod_eq_of_lt (u32_lt n)
  have hmm : LIBALLOC_MAGIC % 256 ^ 4 = LIBALLOC_MAGIC := by decide
  have hsize : u32 (sub64 (sub64 (s.get tag .realSize) tagSize) (s.get tag .size)) =
      splitSize tag s := rfl
  simp only [cutTag, hsize, get_set hT ht hn, get_set hT hn hn, get_set hT hx hn, get_set hT hx ht,
    get_set hT ht ht, get_set hT hn ht, get_setThrough hT hx hr, get_setThrough hT ht hr,
    get_setThrough hT hn hr, hne, htn, hrt', hrn', if_false, Field.width, hrm, htm, hnm, hsm, hum,
    hmm, reduceCtorEq, if_true, and_true, and_false]
  by_cases hxn : x = splitAddr tag s
  · subst hxn
    cases f <;> simp [htn, hrn', cutFields]
  · by_cases hxt : x = tag <;> cases f <;> simp [hxn, hxt, hne]

theorem cutTag_frame (hT : Separate T) (ht : tag ∈ T) (hn : splitAddr tag s ∈ T)
    (hne : tag ≠ splitAddr tag s) (hr : Ptr T (s.get tag .splitRight)) :
    Frame T s (cutTag tag s) := by
  have hrm : s.get tag .splitRight % 256 ^ 8 = s.get tag .splitRight := Nat.mod_eq_of_lt (hr.lt hT)
  simp only [cutTag, get_set hT ht hn, get_set hT hn hn, hne, false_and, if_false, Field.width, hrm,
    true_and, if_true]
  exact (frame_set hn).trans <| (frame_set hn).trans <| (frame_set hn).trans <|
    (frame_set hn).trans <| (frame_set hn).trans <| (frame_set hn).trans <|
    (frame_setThrough hr).trans <| (frame_set ht).trans (frame_set ht)

@[simp] theorem cutTag_freePages : (cutTag tag s).freePages = s.freePages := by
  simp only [cutTag, setThrough_freePages, set_freePages]

@[simp] theorem cutTag_completePages : (cutTag tag s).completePages = s.completePages := by
  simp only [cutTag, setThrough_completePages, set_completePages]

end Kvi.Alloc
