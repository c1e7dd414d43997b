import Kvi.Library.Ring
import Kvi.Library.Word

/-! The configuration of the `ixgbe` driver, and what both directions share.

A ring is used by two parties. The device owns the descriptors from the head
register up to the tail register and moves the head; the driver owns the others
and moves the tail. One descriptor stays unused, so that equal registers mean an
empty ring. -/
namespace Kvi.Ixgbe

/-- `struct ixgbe_config`, the fields that sending and receiving read. The driver installs
`ixgbe_default_config` and no other; the bounds are what makes a configuration usable. -/
structure Config where
  bufsize : Nat
  numTdesc : Nat
  numRdesc : Nat
  /-- The length field of a descriptor has 16 bits. -/
  bufsize_le : bufsize ≤ 2 ^ 16
  two_le_numTdesc : 2 ≤ numTdesc
  numTdesc_lt : numTdesc < 2 ^ 31
  two_le_numRdesc : 2 ≤ numRdesc
  numRdesc_lt : numRdesc < 2 ^ 31

/-- `ixgbe_default_config` -/
def defaultConfig : Config :=
  ⟨2048, 256, 256, by decide, by decide, by decide, by decide, by decide⟩

def IXGBE_RET_OK : Int := 0
def IXGBE_RET_ERR : Int := -1

/-- What both calls return for an error state. -/
def ret (errstate : Nat) : Int := if errstate ≠ 0 then IXGBE_RET_ERR else IXGBE_RET_OK

theorem ret_ok {errstate : Nat} : ret errstate = IXGBE_RET_OK ↔ errstate = 0 := by
  unfold ret IXGBE_RET_OK IXGBE_RET_ERR
  split <;> omega

/-- `nt = tail + 1`, wrapped. -/
def nextDesc (num tail : Nat) : Nat :=
  let nt := u32 (tail + 1)
  if num ≤ nt then 0 else nt

theorem nextDesc_lt {num : Nat} (h2 : 2 ≤ num) (tail : Nat) : nextDesc num tail < num := by
  rw [nextDesc]
  split <;> omega

/-- From a position of the ring on. -/
theorem nextDesc_of_lt {num tail : Nat} (hlt : num < 2 ^ 31) (ht : tail < num) :
    nextDesc num tail = Ring.next num tail := by
  rw [nextDesc, u32_of_lt (by omega)]
  rfl

/-- From the end of the ring on, where the first comparison is one off. -/
theorem nextDesc_self {num : Nat} (h2 : 2 ≤ num) (hlt : num < 2 ^ 31) : nextDesc num num = 0 := by
  rw [nextDesc, u32_of_lt (by omega)]
  exact if_pos (Nat.le_succ num)

theorem nextDesc_mod {num k : Nat} (h2 : 2 ≤ num) (hlt : num < 2 ^ 31) :
    nextDesc num (k % num) = (k + 1) % num := by
  have hk := Nat.mod_lt k (show 0 < num by omega)
  rw [nextDesc, u32_of_lt (by omega)]
  exact Ring.next_mod (by omega)

/-- The steps of one party, with no step of the other between them. -/
abbrev Alone {S : Type} (step : S → Option S) : S → S → Prop :=
  Relation.ReflTransGen fun s s' => step s = some s'

/-- Two equal lists that end with one element more. -/
theorem last_of_append {α : Type} {xs ys zs : List α} {x y : α} (h : xs ++ [x] = ys ++ zs) (hz : zs = [y]) :
    xs = ys ∧ x = y := by
  rw [hz] at h
  obtain ⟨hxs, hx⟩ := List.append_inj' h rfl
  exact ⟨hxs, List.singleton_inj.mp hx⟩

end Kvi.Ixgbe
