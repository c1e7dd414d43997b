import Kvi.Library.Word

/-! The HPET.

`hpet_init` finds out how wide the counter is and how long a tick takes, and
starts the counter. The device is memory-mapped at the address that the ACPI
table gave; what it answers is a parameter. -/
namespace Kvi.Timer

def HPET_REG_CAP : Nat := 0x000
def HPET_REG_PERIOD : Nat := 0x004
def HPET_REG_CONFIG : Nat := 0x010
def HPET_REG_COUNTER_LOW : Nat := 0x0f0
def HPET_REG_COUNTER_HIGH : Nat := 0x0f4

def HPET_REG_CAP_64W : Nat := 0x2000
def HPET_REG_CONFIG_ENABLE : Nat := 0x1

/-- `hpet_counter_width` and `hpet_period`, in femtoseconds. -/
structure Hpet where
  counterWidth : Nat
  period : Nat
  deriving DecidableEq, Repr

/-- A read or a write of a 32-bit register. -/
inductive Access where
  | read (addr : Nat)
  | write (addr value : Nat)
  deriving DecidableEq, Repr

def Access.addr : Access → Nat
  | .read a | .write a _ => a

/-- The bits of an enabled register, and without the enable bit. -/
def enabled (value : Nat) : Nat := value ||| HPET_REG_CONFIG_ENABLE
def disabled (value : Nat) : Nat := value &&& (2 ^ 32 - 1 - HPET_REG_CONFIG_ENABLE)

/-- `hpet_init`, given what the `i`-th read of a register answers. -/
def hpetInit (answer : Nat → Nat → Nat) (base : Nat) : Hpet × List Access :=
  let cap := answer 0 (base + HPET_REG_CAP)
  let width := if cap &&& HPET_REG_CAP_64W ≠ 0 then 64 else 32
  let config := answer 1 (base + HPET_REG_CONFIG)
  let period := answer 2 (base + HPET_REG_PERIOD)
  let config' := answer 3 (base + HPET_REG_CONFIG)
  (⟨width, period⟩,
    [.read (base + HPET_REG_CAP),
      .read (base + HPET_REG_CONFIG),
      .write (base + HPET_REG_CONFIG) (disabled config),
      .read (base + HPET_REG_PERIOD),
      .write (base + HPET_REG_COUNTER_LOW) 0,
      .write (base + HPET_REG_COUNTER_HIGH) 0,
      .read (base + HPET_REG_CONFIG),
      .write (base + HPET_REG_CONFIG) (enabled config')])

def hpetConvertToNsec (h : Hpet) (count : Nat) : Nat := u64 (count * h.period) / 1000000

/-- What `hpet_get_count` reads when the counter has made `ticks` ticks since it was zero. -/
def hpetGetCount (h : Hpet) (ticks : Nat) : Nat :=
  if h.counterWidth = 64 then u64 ticks else u32 ticks

end Kvi.Timer
