import Mathlib.Tactic
import Mathlib.Logic.Function.Basic

/-! Byte-addressed memory.

A memory is a byte at every address. Multi-byte accesses are little-endian and
may have any width and any alignment, as on the machine the kernel runs on.
What a store does to a load is said three times: the same cell reads back the
value it can hold (`load_store_same`), a disjoint cell is untouched
(`load_store_disjoint`), and a byte outside the cell is untouched
(`store_outside`). The block fills and copies that loops perform are described
by what they leave at every address (`fill_apply`, `copyBytes_apply`). -/
namespace Kvi

/-- A byte at every address. -/
abbrev Memory := Nat → UInt8

namespace Memory

/-- The `n` bytes at `a`, little-endian. -/
def load (m : Memory) (a : Nat) : Nat → Nat
  | 0 => 0
  | n + 1 => (m a).toNat + 256 * load m (a + 1) n

/-- The low `n` bytes of `v` written at `a`, little-endian. -/
def store (m : Memory) (a n v : Nat) : Memory :=
  fun b => if a ≤ b ∧ b < a + n then UInt8.ofNat (v / 256 ^ (b - a)) else m b

theorem load_lt (m : Memory) (a n : Nat) : m.load a n < 256 ^ n := by
  induction n generalizing a with
  | zero => simp [load]
  | succ n ih =>
    have hb := (m a).toNat_lt
    have := ih (a + 1)
    rw [load, pow_succ]
    omega

/-- Equal bytes load equally, wherever they are. -/
theorem load_eq_of_bytes {m m' : Memory} {a a' n : Nat} (h : ∀ i, i < n → m' (a' + i) = m (a + i)) :
    m'.load a' n = m.load a n := by
  induction n generalizing a a' with
  | zero => rfl
  | succ n ih =>
    have htail : m'.load (a' + 1) n = m.load (a + 1) n := by
      apply ih
      intro i hi
      have := h (i + 1) (by omega)
      rwa [Nat.add_comm i 1, ← Nat.add_assoc, ← Nat.add_assoc] at this
    have hhead : m' a' = m a := h 0 (by omega)
    rw [load, load, hhead, htail]

/-- A load reads its own bytes only. -/
theorem load_congr {m m' : Memory} {a n : Nat} (h : ∀ b, a ≤ b → b < a + n → m' b = m b) :
    m'.load a n = m.load a n :=
  load_eq_of_bytes fun i hi => h (a + i) (by omega) (by omega)

@[simp] theorem store_outside {m : Memory} {a n v b : Nat} (h : b < a ∨ a + n ≤ b) :
    m.store a n v b = m b := by
  rw [store, if_neg (by omega)]

/-- The last store to a cell is the one that counts. -/
theorem store_store (m : Memory) (a n v w : Nat) : (m.store a n v).store a n w = m.store a n w := by
  funext b
  by_cases hb : a ≤ b ∧ b < a + n
  · rw [store, if_pos hb, store, if_pos hb]
  · rw [store, if_neg hb, store, if_neg hb, store, if_neg hb]

theorem load_store_disjoint {m : Memory} {a n v b k : Nat} (h : b + k ≤ a ∨ a + n ≤ b) :
    (m.store a n v).load b k = m.load b k :=
  load_congr fun _ _ _ => store_outside (by omega)

/-- Bytes that spell `v` load as `v`, up to the width. -/
theorem load_of_bytes {m : Memory} {a n v : Nat}
    (h : ∀ i, i < n → m (a + i) = UInt8.ofNat (v / 256 ^ i)) : m.load a n = v % 256 ^ n := by
  induction n generalizing a v with
  | zero => simp [load, Nat.mod_one]
  | succ n ih =>
    have htail : m.load (a + 1) n = v / 256 % 256 ^ n := by
      apply ih
      intro i hi
      rw [Nat.add_assoc, Nat.add_comm 1 i, h (i + 1) (by omega), Nat.div_div_eq_div_mul, pow_succ,
        Nat.mul_comm 256]
    have hhead : (m a).toNat = v % 256 := by
      have := h 0 (by omega)
      simp only [Nat.add_zero, pow_zero, Nat.div_one] at this
      rw [this, UInt8.toNat_ofNat']
    rw [load, hhead, htail, pow_succ, Nat.mul_comm (256 ^ n), Nat.mod_mul]

/-- Bytes that are zero load as zero. -/
theorem load_zero {m : Memory} {a n : Nat} (h : ∀ i < n, m (a + i) = 0) : m.load a n = 0 := by
  have hload : m.load a n = 0 % 256 ^ n := load_of_bytes fun i hi => by
    rw [h i hi, Nat.zero_div]
    rfl
  rw [hload, Nat.zero_mod]

/-- Behind one byte that is not zero. -/
theorem load_byte {m : Memory} {a n v : Nat} (hv : v < 256) (hfirst : m a = UInt8.ofNat v)
    (h : ∀ i, 0 < i → i < n + 1 → m (a + i) = 0) : m.load a (n + 1) = v := by
  rw [load, hfirst, load_zero fun i hi => by
    rw [Nat.add_assoc, Nat.add_comm 1 i]
    exact h (i + 1) (Nat.succ_pos i) (Nat.succ_lt_succ hi)]
  rw [UInt8.toNat_ofNat', Nat.mul_zero, Nat.add_zero, Nat.mod_eq_of_lt hv]

/-- A cell in two parts. -/
theorem load_add (m : Memory) (a n k : Nat) : m.load a (n + k) = m.load a n + 256 ^ n * m.load (a + n) k := by
  induction n generalizing a with
  | zero => simp [load]
  | succ n ih =>
    have hsucc : n + 1 + k = (n + k) + 1 := by omega
    have haddr : a + 1 + n = a + (n + 1) := by omega
    rw [hsucc, load, load, ih, haddr, pow_succ', Nat.mul_add, ← Nat.mul_assoc, Nat.add_assoc]

theorem load_store_same (m : Memory) (a n v : Nat) : (m.store a n v).load a n = v % 256 ^ n := by
  apply load_of_bytes
  intro i hi
  rw [store, if_pos (by omega)]
  congr 2
  rw [Nat.add_sub_cancel_left]

/-- Storing what a cell holds changes nothing: a load followed by a store copies bytes. -/
theorem byte_of_load {m : Memory} {a n i : Nat} (h : i < n) :
    UInt8.ofNat (m.load a n / 256 ^ i) = m (a + i) := by
  induction n generalizing a i with
  | zero => omega
  | succ n ih =>
    have hb := (m a).toNat_lt
    cases i with
    | zero =>
      apply UInt8.toNat_inj.mp
      rw [UInt8.toNat_ofNat', load, pow_zero, Nat.div_one]
      show _ = (m a).toNat
      omega
    | succ i =>
      rw [load, pow_succ', ← Nat.div_div_eq_div_mul,
        show ((m a).toNat + 256 * m.load (a + 1) n) / 256 = m.load (a + 1) n from by omega,
        ih (by omega)]
      congr 1
      omega

/-! ### Filling and copying -/

/-- The bytes `bs` written from `a` on. -/
def write (m : Memory) (a : Nat) (bs : List UInt8) : Memory :=
  fun b => if a ≤ b ∧ b < a + bs.length then bs.getD (b - a) 0 else m b

theorem write_outside {m : Memory} {a b : Nat} {bs : List UInt8} (h : b < a ∨ a + bs.length ≤ b) :
    m.write a bs b = m b := by
  rw [write, if_neg (by omega)]

theorem write_inside {m : Memory} {a i : Nat} {bs : List UInt8} (h : i < bs.length) :
    m.write a bs (a + i) = bs.getD i 0 := by
  rw [write, if_pos (by omega), Nat.add_sub_cancel_left]

/-- `n` bytes from `a` on set to `c`, one after the other. -/
def fill (m : Memory) (a : Nat) (c : UInt8) : Nat → Memory
  | 0 => m
  | n + 1 => Function.update (fill m a c n) (a + n) c

theorem fill_apply (m : Memory) (a : Nat) (c : UInt8) (n b : Nat) :
    m.fill a c n b = if a ≤ b ∧ b < a + n then c else m b := by
  induction n with
  | zero => rw [fill, if_neg (by omega)]
  | succ n ih =>
    rw [fill, Function.update_apply, ih]
    split_ifs <;> first | rfl | omega

/-- `n` bytes copied from `src` to `dst`, lowest address first. -/
def copyBytes (m : Memory) (dst src : Nat) : Nat → Memory
  | 0 => m
  | n + 1 => copyBytes (Function.update m dst (m src)) (dst + 1) (src + 1) n

theorem copyBytes_apply (m : Memory) (dst src n b : Nat)
    (h : dst + n ≤ src ∨ src + n ≤ dst) :
    m.copyBytes dst src n b = if dst ≤ b ∧ b < dst + n then m (src + (b - dst)) else m b := by
  induction n generalizing m dst src with
  | zero => rw [copyBytes, if_neg (by omega)]
  | succ n ih =>
    rw [copyBytes, ih _ _ _ (by omega)]
    simp only [Function.update_apply]
    by_cases hb : b = dst
    · subst hb
      rw [if_neg (by omega), if_pos rfl, if_pos (by omega), Nat.sub_self, Nat.add_zero]
    · by_cases hin : dst ≤ b ∧ b < dst + (n + 1)
      · rw [if_pos (by omega), if_neg (by omega), if_pos hin]
        congr 1
        omega
      · rw [if_neg (by omega), if_neg hb, if_neg hin]

end Memory
end Kvi
