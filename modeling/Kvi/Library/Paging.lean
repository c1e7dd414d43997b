import Kvi.Library.Memory

/-! Four-level paging.

Each level selects one of the 512 entries of a table by nine bits of the virtual
address, from level 3 at the top down to level 0; an entry at level 1 or 2 may map a
large page instead of naming the next table. How an access to the page is cached is
up to the entry that maps the page. The caching bits of the entries above it are
for the accesses to the tables themselves. -/
namespace Kvi.Paging

def present (e : Nat) : Bool := e.testBit 0
def writeThrough (e : Nat) : Bool := e.testBit 3
def cacheDisable (e : Nat) : Bool := e.testBit 4
def pageSize (e : Nat) : Bool := e.testBit 7

/-- What an address is mapped to. -/
structure Mapping where
  address : Nat
  writeThrough : Bool
  cacheDisable : Bool
  deriving DecidableEq, Repr

/-- The bits below those that select an entry. -/
def shift (level : Nat) : Nat := 12 + 9 * level

/-- Bits `shift level` to 51 of an entry. -/
def base (level e : Nat) : Nat := e % 2 ^ 52 / 2 ^ shift level * 2 ^ shift level

/-- The entry of a table that an address selects. -/
def entry (m : Memory) (level table v : Nat) : Nat := m.load (table + 8 * (v / 2 ^ shift level % 512)) 8

/-- The page an entry maps. -/
def page (level e v : Nat) : Mapping :=
  ⟨base level e + v % 2 ^ shift level, writeThrough e, cacheDisable e⟩

/-- A large page has no other address bits than those of its base. -/
def large (level e v : Nat) : Option Mapping :=
  if level ≤ 2 ∧ e % 2 ^ shift level / 2 ^ 13 = 0 then some (page level e v) else none

/-- The walk from a table of a level on. -/
def walkFrom (m : Memory) : Nat → Nat → Nat → Option Mapping
  | 0, table, v =>
    let e := entry m 0 table v
    if present e then some (page 0 e v) else none
  | level + 1, table, v =>
    let e := entry m (level + 1) table v
    if present e then
      if pageSize e then large (level + 1) e v else walkFrom m level (base 0 e) v
    else none

/-- Bits 47 to 63 are the same. -/
def Canonical (v : Nat) : Prop := v < 2 ^ 47 ∨ 2 ^ 64 - 2 ^ 47 ≤ v ∧ v < 2 ^ 64

instance (v : Nat) : Decidable (Canonical v) := inferInstanceAs (Decidable (_ ∨ _))

/-- The translation of a virtual address under a value of `CR3`. -/
def walk (m : Memory) (cr3 v : Nat) : Option Mapping :=
  if Canonical v then walkFrom m 3 (base 0 cr3) v else none

variable {m : Memory} {level table v e : Nat}

theorem walkFrom_absent (he : entry m (level + 1) table v = e) (hp : present e = false) :
    walkFrom m (level + 1) table v = none := by
  rw [walkFrom, he]
  rw [hp]
  exact if_neg Bool.false_ne_true

theorem walkFrom_next (he : entry m (level + 1) table v = e) (hp : present e = true)
    (hs : pageSize e = false) : walkFrom m (level + 1) table v = walkFrom m level (base 0 e) v := by
  rw [walkFrom, he]
  rw [hp, hs, if_pos rfl, if_neg Bool.false_ne_true]

theorem walkFrom_large (he : entry m (level + 1) table v = e) (hp : present e = true)
    (hs : pageSize e = true) : walkFrom m (level + 1) table v = large (level + 1) e v := by
  rw [walkFrom, he]
  rw [hp, hs, if_pos rfl, if_pos rfl]

end Kvi.Paging
