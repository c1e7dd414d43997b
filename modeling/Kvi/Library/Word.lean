import Mathlib.Tactic

/-! Fixed-width integers.

A machine word is a natural number below its modulus; the names say where C
truncates (`u8`, `u16`, `u32`, `u64`), subtracts with wrap-around (`sub64`, `sub32`), and
reads the same bits as a signed value (`s32`, `s64`). `ofInt32` and `ofInt64` are
the bits of a signed value, and `int32` is what an `int` holds of it. -/
namespace Kvi

def u8 (n : Nat) : Nat := n % 2 ^ 8
def u16 (n : Nat) : Nat := n % 2 ^ 16
def u32 (n : Nat) : Nat := n % 2 ^ 32
def u64 (n : Nat) : Nat := n % 2 ^ 64

/-- `a - b` on 64-bit words. -/
def sub64 (a b : Nat) : Nat := u64 (a + 2 ^ 64 - b)

/-- `a - b` on 32-bit words. -/
def sub32 (a b : Nat) : Nat := u32 (a + 2 ^ 32 - b)

/-- The 32 bits of `n` read as an `int`. -/
def s32 (n : Nat) : Int := if u32 n < 2 ^ 31 then (u32 n : Int) else (u32 n : Int) - 2 ^ 32

/-- The 32 bits of an `int`. -/
def ofInt32 (i : Int) : Nat := (i % 2 ^ 32).toNat

/-- An `int` converted to a 64-bit unsigned word. -/
def ofInt64 (i : Int) : Nat := (i % 2 ^ 64).toNat

/-- The 64 bits of `n` read as a `long`. -/
def s64 (n : Nat) : Int := if u64 n < 2 ^ 63 then (u64 n : Int) else (u64 n : Int) - 2 ^ 64

/-- A result that is kept in an `int`, which wraps as the machine's does. -/
def int32 (i : Int) : Int := s32 (ofInt32 i)

theorem u32_of_lt {n : Nat} (h : n < 2 ^ 32) : u32 n = n := Nat.mod_eq_of_lt h

theorem u64_of_lt {n : Nat} (h : n < 2 ^ 64) : u64 n = n := Nat.mod_eq_of_lt h

theorem u32_lt (n : Nat) : u32 n < 2 ^ 32 := Nat.mod_lt _ (by decide)

theorem sub64_of_le {a b : Nat} (ha : a < 2 ^ 64) (h : b ≤ a) : sub64 a b = a - b := by
  unfold sub64 u64
  omega

theorem s32_of_lt {n : Nat} (h : n < 2 ^ 31) : s32 n = n := by
  unfold s32
  rw [u32_of_lt (by omega), if_pos h]

theorem s32_ofInt32 {i : Int} (hlo : -2 ^ 31 ≤ i) (hhi : i < 2 ^ 31) : s32 (ofInt32 i) = i := by
  unfold s32 ofInt32 u32
  split <;> omega

theorem int32_of_range {i : Int} (hlo : -2 ^ 31 ≤ i) (hhi : i < 2 ^ 31) : int32 i = i :=
  s32_ofInt32 hlo hhi

theorem int32_eq (i : Int) : int32 i = (i + 2 ^ 31) % 2 ^ 32 - 2 ^ 31 := by
  unfold int32 s32 ofInt32 u32
  split <;> omega

theorem ofInt32_lt (i : Int) : ofInt32 i < 2 ^ 32 := by
  unfold ofInt32
  omega

theorem ofInt64_of_nonneg {i : Int} (h0 : 0 ≤ i) (h : i < 2 ^ 64) : ofInt64 i = i.toNat := by
  unfold ofInt64
  omega

end Kvi
