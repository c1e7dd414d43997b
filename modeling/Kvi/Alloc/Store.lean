import Mathlib.Tactic
import Mathlib.Logic.Function.Basic

/-! What the allocator is for: a store of independent byte arrays.

Every live pointer has an array of bytes of its own. A request adds an array,
drops one, or both; a client writes one byte of one array. Nothing else changes,
and a pointer handed out is the start of bytes no live array has. -/
namespace Kvi.Alloc

/-- A request of a client, or a byte a client writes. -/
inductive Op where
  | malloc (size : Nat)
  | calloc (nobj size : Nat)
  | realloc (p size : Nat)
  | free (p : Nat)
  | write (a : Nat) (v : UInt8)
  deriving DecidableEq, Repr

/-- The calls that are given the block at `q`. -/
def Given (q : Nat) : Op → Prop
  | .realloc p _ | .free p => p = q
  | .malloc _ | .calloc _ _ | .write _ _ => False

/-- The array of every live pointer. -/
abbrev Store := Nat → Option (List UInt8)

namespace Store

def empty : Store := fun _ => none

def put (A : Store) (p : Nat) (bs : List UInt8) : Store := Function.update A p (some bs)

def drop (A : Store) (p : Nat) : Store := Function.update A p none

/-- `n` bytes at `p` that belong to no live array. -/
structure Fresh (A : Store) (p n : Nat) : Prop where
  nonnull : p ≠ 0
  dead : A p = none
  apart : ∀ q bs, A q = some bs → p + n ≤ q ∨ q + bs.length ≤ p

/-- One request and the pointer it returns. -/
inductive Step : Op → Nat → Store → Store → Prop where
  | malloc {A : Store} {p n : Nat} {bs : List UInt8} (fresh : A.Fresh p n) (length : bs.length = n) :
      Step (.malloc n) p A (A.put p bs)
  | calloc {A : Store} {p k n : Nat} (fresh : A.Fresh p (k * n)) :
      Step (.calloc k n) p A (A.put p (List.replicate (k * n) 0))
  | reallocNull {A : Store} {p n : Nat} {bs : List UInt8} (fresh : A.Fresh p n) (pos : 0 < n)
      (length : bs.length = n) : Step (.realloc 0 n) p A (A.put p bs)
  | reallocZero {A : Store} {q : Nat} : Step (.realloc q 0) 0 A (A.drop q)
  | realloc {A : Store} {p q n : Nat} {old bs : List UInt8} (live : A q = some old)
      (fresh : A.Fresh p n) (pos : 0 < n) (length : bs.length = n)
      (same : bs.take (min old.length n) = old.take (min old.length n)) :
      Step (.realloc q n) p A ((A.drop q).put p bs)
  | free {A : Store} {q : Nat} : Step (.free q) 0 A (A.drop q)
  | write {A : Store} {q i : Nat} {v : UInt8} {bs : List UInt8} (live : A q = some bs)
      (inside : i < bs.length) : Step (.write (q + i) v) 0 A (A.put q (bs.set i v))

/-- A run from the store without arrays, with the pointers returned. -/
inductive Run : List (Op × Nat) → Store → Prop where
  | nil : Run [] empty
  | snoc {trace : List (Op × Nat)} {A A' : Store} {op : Op} {p : Nat} (run : Run trace A)
      (step : Step op p A A') : Run (trace ++ [(op, p)]) A'

variable {A A' : Store} {p q n : Nat} {bs cs : List UInt8} {op : Op}

@[simp] theorem put_self : A.put p bs p = some bs := Function.update_self ..

theorem put_of_ne (h : q ≠ p) : A.put p bs q = A q := Function.update_of_ne h ..

@[simp] theorem drop_self : A.drop p p = none := Function.update_self ..

theorem drop_of_ne (h : q ≠ p) : A.drop p q = A q := Function.update_of_ne h ..

theorem drop_put (h : p ≠ q) : (A.put p bs).drop q = (A.drop q).put p bs :=
  Function.update_comm h _ _ _

/-- An array a call is not given keeps its bytes. -/
theorem Step.frame (h : Step op p A A') (hq : A q = some bs) (hgiven : ¬ Given q op)
    (hwrite : ∀ a v, op ≠ .write a v) : A' q = some bs := by
  cases h with
  | malloc fresh =>
    rwa [put_of_ne]
    intro heq
    rw [heq, fresh.dead] at hq
    cases hq
  | calloc fresh =>
    rwa [put_of_ne]
    intro heq
    rw [heq, fresh.dead] at hq
    cases hq
  | reallocNull fresh =>
    rwa [put_of_ne]
    intro heq
    rw [heq, fresh.dead] at hq
    cases hq
  | reallocZero => rwa [drop_of_ne (Ne.symm hgiven)]
  | realloc _ fresh =>
    rwa [put_of_ne, drop_of_ne (Ne.symm hgiven)]
    intro heq
    rw [heq, fresh.dead] at hq
    cases hq
  | free => rwa [drop_of_ne (Ne.symm hgiven)]
  | write => exact absurd rfl (hwrite _ _)

end Store
end Kvi.Alloc
