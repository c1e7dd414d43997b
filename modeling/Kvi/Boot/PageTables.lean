import Kvi.Boot.E820
import Kvi.Library.Paging

/-! The page tables of `start16`.

The code runs with 16-bit addresses, and the tables are to begin at 0xf000: only the
first of the four pages lies below 64 KiB. The clearing runs on at 0, and the page
directory pointers come to lie there, over the interrupt vectors and the BIOS data
area. -/
namespace Kvi.Boot
open Paging

/-- `rep stosl`: `cx` dwords from `di` on. -/
def repStosl (eax : Nat) : Nat → Nat → Memory → Memory
  | 0, _, m => m
  | cx + 1, di, m => repStosl eax cx (u16 (di + 4)) (m.store di 4 eax)

/-- The loop over the page directory pointers; `%edx:%eax` is the entry. -/
def fillPdp : Nat → Nat → Nat → Nat → Memory → Memory
  | 0, _, _, _, m => m
  | ecx + 1, di, eax, edx, m =>
    let m := (m.store di 4 eax).store (u16 (di + 4)) 4 edx
    let sum := eax + 0x40000000
    fillPdp ecx (u16 (di + 8)) (u32 sum) (u32 (edx + sum / 2 ^ 32)) m

/-- The part of `start16` that makes the page tables. -/
def makeTables (m : Memory) : Memory :=
  let si := BOOT_PAGE_TBL_BASE
  let m := repStosl 0 4096 si m
  let di := si
  let m := m.store di 4 (u16 (di + 0x1000) ||| 0x7)
  let m := m.store (u16 (di + 8)) 4 (u16 (di + 0x1000) ||| 0x1f)
  fillPdp 512 (u16 (di + 0x1000)) 0x87 0 m

variable {m : Memory} {n di eax edx b i : Nat}

theorem repStosl_apply (hdi : di < 2 ^ 16) :
    repStosl 0 n di m b = if ∃ k < n, u16 (di + 4 * k) ≤ b ∧ b < u16 (di + 4 * k) + 4 then 0 else m b := by
  induction n generalizing di m with
  | zero => rw [repStosl, if_neg fun h => by obtain ⟨k, hk, _⟩ := h; omega]
  | succ n ih =>
    have hzero : u16 (di + 4 * 0) = di := Nat.mod_eq_of_lt hdi
    have hnext : ∀ k, u16 (u16 (di + 4) + 4 * k) = u16 (di + 4 * (k + 1)) := by
      intro k
      unfold u16
      omega
    have hlt : u16 (di + 4) < 2 ^ 16 := Nat.mod_lt _ (by decide)
    rw [repStosl, ih hlt]
    by_cases hrest : ∃ k < n, u16 (u16 (di + 4) + 4 * k) ≤ b ∧ b < u16 (u16 (di + 4) + 4 * k) + 4
    · obtain ⟨k, hk, hb⟩ := hrest
      rw [if_pos ⟨k, hk, hb⟩, if_pos ⟨k + 1, Nat.succ_lt_succ hk, by rwa [hnext] at hb⟩]
    · rw [if_neg hrest]
      by_cases hb : di ≤ b ∧ b < di + 4
      · rw [Memory.store, if_pos hb, Nat.zero_div, if_pos ⟨0, Nat.succ_pos n, by rwa [hzero]⟩]
        rfl
      · rw [Memory.store, if_neg hb, if_neg]
        intro h
        obtain ⟨k, hk, hin⟩ := h
        cases k with
        | zero => exact hb (by rwa [hzero] at hin)
        | succ k => exact hrest ⟨k, Nat.lt_of_succ_lt_succ hk, by rwa [hnext]⟩

/-- The page at 0xf000, and the three that come behind it modulo 64 KiB. -/
theorem cleared_apply : repStosl 0 4096 BOOT_PAGE_TBL_BASE m b =
    if b < 0x3000 ∨ 0xf000 ≤ b ∧ b < 0x10000 then 0 else m b := by
  rw [repStosl_apply (by decide)]
  refine if_congr ?_ rfl rfl
  unfold BOOT_PAGE_TBL_BASE u16
  constructor
  · intro h
    obtain ⟨k, hk, hb⟩ := h
    omega
  · intro h
    rcases h with h | h
    · exact ⟨(b + 0x1000) / 4, by omega, by omega⟩
    · exact ⟨(b - 0xf000) / 4, by omega, by omega⟩

theorem fillPdp_outside (hdi : di + 8 * n < 2 ^ 16) (hb : b < di ∨ di + 8 * n ≤ b) :
    fillPdp n di eax edx m b = m b := by
  induction n generalizing di eax edx m with
  | zero => rfl
  | succ n ih =>
    have hhigh : u16 (di + 4) = di + 4 := Nat.mod_eq_of_lt (by omega)
    have hnext : u16 (di + 8) = di + 8 := Nat.mod_eq_of_lt (by omega)
    rw [fillPdp]
    rw [hhigh, hnext, ih (by omega) (by omega), Memory.store_outside (by omega),
      Memory.store_outside (by omega)]

/-- The carry goes into the upper half, so each entry is 1 GiB above the one before it. -/
theorem fillPdp_load (hdi : di + 8 * n < 2 ^ 16) (heax : eax < 2 ^ 32) (hedx : edx + n < 2 ^ 32)
    (hi : i < n) : (fillPdp n di eax edx m).load (di + 8 * i) 8 = eax + 2 ^ 32 * edx + i * 2 ^ 30 := by
  induction n generalizing di eax edx m i with
  | zero => cases hi
  | succ n ih =>
    have hhigh : u16 (di + 4) = di + 4 := Nat.mod_eq_of_lt (by omega)
    have hnext : u16 (di + 8) = di + 8 := Nat.mod_eq_of_lt (by omega)
    have hsum : u32 (edx + (eax + 0x40000000) / 2 ^ 32) = edx + (eax + 0x40000000) / 2 ^ 32 :=
      Nat.mod_eq_of_lt (by omega)
    rw [fillPdp]
    rw [hhigh, hnext, hsum]
    cases i with
    | zero =>
      have hkept : ∀ m', (fillPdp n (di + 8) (u32 (eax + 0x40000000))
          (edx + (eax + 0x40000000) / 2 ^ 32) m').load (di + 8 * 0) 8 = m'.load di 8 := by
        intro m'
        exact Memory.load_congr fun b _ hb => fillPdp_outside (by omega) (by omega)
      have hpow : 256 ^ 4 = 2 ^ 32 := by decide
      rw [hkept, Memory.load_add _ _ 4 4, Memory.load_store_same,
        Memory.load_store_disjoint (by omega), Memory.load_store_same, hpow, Nat.mod_eq_of_lt heax,
        Nat.mod_eq_of_lt (by omega)]
      omega
    | succ i =>
      have haddr : di + 8 * (i + 1) = di + 8 + 8 * i := by omega
      have hcarry : edx + (eax + 0x40000000) / 2 ^ 32 + n < 2 ^ 32 := by omega
      have hlt : u32 (eax + 0x40000000) < 2 ^ 32 := Nat.mod_lt _ (by decide)
      have hsplit := Nat.div_add_mod (eax + 0x40000000) (2 ^ 32)
      rw [haddr, ih (by omega) hlt hcarry (Nat.lt_of_succ_lt_succ hi), u32]
      omega

/-! ### What is left in memory -/

/-- The `i`-th page directory pointer: a page of 1 GiB. -/
def pdpe (i : Nat) : Nat := 0x87 + i * 2 ^ 30

/-- The memory before the page directory pointers are filled in. -/
def topLevel (m : Memory) : Memory :=
  ((repStosl 0 4096 BOOT_PAGE_TBL_BASE m).store 0xf000 4 0x7).store 0xf008 4 0x1f

theorem makeTables_eq : makeTables m = fillPdp 512 0 0x87 0 (topLevel m) := rfl

/-- Nothing outside the pages at 0 to 0x2fff and at 0xf000 changes. -/
theorem makeTables_outside (hlow : 0x3000 ≤ b) (htop : b < 0xf000 ∨ 0x10000 ≤ b) :
    makeTables m b = m b := by
  rw [makeTables_eq, fillPdp_outside (by decide) (by omega), topLevel, Memory.store_outside (by omega),
    Memory.store_outside (by omega), cleared_apply, if_neg (by omega)]

theorem makeTables_zero (hlow : 0x1000 ≤ b) (hhigh : b < 0x3000) : makeTables m b = 0 := by
  rw [makeTables_eq, fillPdp_outside (by decide) (by omega), topLevel, Memory.store_outside (by omega),
    Memory.store_outside (by omega), cleared_apply, if_pos (by omega)]

theorem makeTables_pdpe (hi : i < 512) : (makeTables m).load (8 * i) 8 = pdpe i := by
  have hload : (fillPdp 512 0 0x87 0 (topLevel m)).load (0 + 8 * i) 8 = _ :=
    fillPdp_load (by decide) (by decide) (by decide) hi
  rw [Nat.zero_add] at hload
  rw [makeTables_eq, hload]
  rfl

theorem makeTables_pml4e (hi : i < 512) : (makeTables m).load (0xf000 + 8 * i) 8 =
    if i = 0 then 0x7 else if i = 1 then 0x1f else 0 := by
  have htop : (makeTables m).load (0xf000 + 8 * i) 8 = (topLevel m).load (0xf000 + 8 * i) 8 :=
    Memory.load_congr fun b hb _ => by rw [makeTables_eq, fillPdp_outside (by decide) (by omega)]
  have hzero : ∀ a, 0xf000 ≤ a → a + 4 ≤ 0x10000 →
      (repStosl 0 4096 BOOT_PAGE_TBL_BASE m).load a 4 = 0 := by
    intro a ha hle
    exact Memory.load_zero fun j hj => by rw [cleared_apply, if_pos (by omega)]
  rw [htop, Memory.load_add _ _ 4 4, topLevel]
  by_cases h0 : i = 0
  · subst h0
    rw [Memory.load_store_disjoint (by omega), Memory.load_store_same, Memory.load_store_disjoint (by omega),
      Memory.load_store_disjoint (by omega), hzero _ (by omega) (by omega)]
    decide
  by_cases h1 : i = 1
  · subst h1
    rw [Memory.load_store_same, Memory.load_store_disjoint (by omega), Memory.load_store_disjoint (by omega),
      hzero _ (by omega) (by omega)]
    decide
  rw [if_neg h0, if_neg h1, Memory.load_store_disjoint (by omega), Memory.load_store_disjoint (by omega),
    Memory.load_store_disjoint (by omega), Memory.load_store_disjoint (by omega),
    hzero _ (by omega) (by omega), hzero _ (by omega) (by omega), Nat.mul_zero]

/-! ### The translation -/

theorem testBit_pdpe {k : Nat} (hk : k < 30) : (pdpe i).testBit k = Nat.testBit 0x87 k := by
  have hmod : pdpe i % 2 ^ 30 = 0x87 := by
    unfold pdpe
    omega
  rw [← hmod, Nat.testBit_mod_two_pow, decide_eq_true hk, Bool.true_and]

/-- Each half of the first TiB is mapped to the lower half, by the same pages. -/
theorem walk_pdpe (hi : i < 512) (v : Nat) (hv : v / 2 ^ 30 % 512 = i) :
    walkFrom (makeTables m) 2 0 v = some ⟨v % 2 ^ 39, false, false⟩ := by
  have he : entry (makeTables m) 2 0 v = pdpe i := by
    have haddr : 0 + 8 * (v / 2 ^ shift 2 % 512) = 8 * i := by
      rw [← hv, Nat.zero_add]
      rfl
    rw [entry, haddr, makeTables_pdpe hi]
  have hp : present (pdpe i) = true := testBit_pdpe (by decide)
  have hs : pageSize (pdpe i) = true := testBit_pdpe (by decide)
  have hreserved : pdpe i % 2 ^ shift 2 / 2 ^ 13 = 0 := by
    show (0x87 + i * 2 ^ 30) % 2 ^ 30 / 2 ^ 13 = 0
    omega
  have hbase : base 2 (pdpe i) + v % 2 ^ shift 2 = v % 2 ^ 39 := by
    show (0x87 + i * 2 ^ 30) % 2 ^ 52 / 2 ^ 30 * 2 ^ 30 + v % 2 ^ 30 = v % 2 ^ 39
    omega
  have hwt : writeThrough (pdpe i) = false := testBit_pdpe (by decide)
  have hcd : cacheDisable (pdpe i) = false := testBit_pdpe (by decide)
  rw [walkFrom_large he hp hs, large, if_pos ⟨le_rfl, hreserved⟩, page, hbase, hwt, hcd]

theorem walk_makeTables (v : Nat) : walk (makeTables m) BOOT_PAGE_TBL_BASE v =
    if v < 2 ^ 40 then some ⟨v % 2 ^ 39, false, false⟩ else none := by
  have htop : base 0 BOOT_PAGE_TBL_BASE = 0xf000 := by decide
  have he : entry (makeTables m) 3 0xf000 v =
      if v / 2 ^ 39 % 512 = 0 then 0x7 else if v / 2 ^ 39 % 512 = 1 then 0x1f else 0 :=
    makeTables_pml4e (Nat.mod_lt _ (by decide))
  have hpdpe := walk_pdpe (m := m) (Nat.mod_lt (v / 2 ^ 30) (by decide)) v rfl
  rw [walk, htop]
  by_cases hc : Canonical v
  · rw [if_pos hc]
    unfold Canonical at hc
    by_cases h0 : v / 2 ^ 39 % 512 = 0
    · rw [if_pos h0] at he
      rw [walkFrom_next he (by decide) (by decide), if_pos (by omega)]
      exact hpdpe
    by_cases h1 : v / 2 ^ 39 % 512 = 1
    · rw [if_neg h0, if_pos h1] at he
      rw [walkFrom_next he (by decide) (by decide), if_pos (by omega)]
      exact hpdpe
    · rw [if_neg h0, if_neg h1] at he
      rw [walkFrom_absent he (by decide), if_neg (by omega)]
  · rw [if_neg hc, if_neg]
    intro hlt
    exact hc (Or.inl (Nat.lt_trans hlt (by decide)))

def MMIO_BASE : Nat := 0x8000000000

/-- The pointer `mmio_read32` and the others make of a physical address. -/
def mmioAddress (phys : Nat) : Nat := MMIO_BASE ||| phys

/-- What the maps are for: memory where it is, and the same without a cache from `MMIO_BASE` on. -/
structure AddressMaps (w : Nat → Option Mapping) : Prop where
  identity : ∀ a < 2 ^ 39, ∃ p, w a = some p ∧ p.address = a
  mmio : ∀ a < 2 ^ 39, ∃ p, w (mmioAddress a) = some p ∧ p.address = a
  uncached : ∀ a < 2 ^ 39, ∀ p, w (mmioAddress a) = some p → p.cacheDisable = true
  only : ∀ v, w v ≠ none → ∃ a < 2 ^ 39, v = a ∨ v = mmioAddress a

theorem mmioAddress_eq {a : Nat} (ha : a < 2 ^ 39) : mmioAddress a = 2 ^ 39 + a := by
  have hor := Nat.two_pow_add_eq_or_of_lt ha 1
  rw [Nat.mul_one] at hor
  exact hor.symm

theorem walk_mmio {a : Nat} (ha : a < 2 ^ 39) :
    walk (makeTables m) BOOT_PAGE_TBL_BASE (mmioAddress a) = some ⟨a, false, false⟩ := by
  have hmod : (2 ^ 39 + a) % 2 ^ 39 = a := by omega
  rw [walk_makeTables, mmioAddress_eq ha, if_pos (by omega), hmod]

/-- The addresses are translated as they should be, and no others are. But the pages that map the
devices are those that map memory, and so every access to a device is one through the cache. -/
theorem devices_cached (m : Memory) :
    (∀ a < 2 ^ 39, walk (makeTables m) BOOT_PAGE_TBL_BASE a = some ⟨a, false, false⟩) ∧
    (∀ a < 2 ^ 39, walk (makeTables m) BOOT_PAGE_TBL_BASE (mmioAddress a) = some ⟨a, false, false⟩) ∧
    (∀ v, walk (makeTables m) BOOT_PAGE_TBL_BASE v ≠ none → ∃ a < 2 ^ 39, v = a ∨ v = mmioAddress a) ∧
    ¬ AddressMaps (walk (makeTables m) BOOT_PAGE_TBL_BASE) := by
  refine ⟨fun a ha => ?_, fun a ha => walk_mmio ha, fun v hv => ?_, fun h => ?_⟩
  · rw [walk_makeTables, if_pos (by omega), Nat.mod_eq_of_lt ha]
  · rw [walk_makeTables] at hv
    by_cases hlt : v < 2 ^ 40
    · by_cases hlow : v < 2 ^ 39
      · exact ⟨v, hlow, Or.inl rfl⟩
      · refine ⟨v - 2 ^ 39, by omega, Or.inr ?_⟩
        rw [mmioAddress_eq (by omega)]
        omega
    · rw [if_neg hlt] at hv
      exact absurd rfl hv
  · exact absurd (h.uncached 0 (by decide) _ (walk_mmio (by decide))) Bool.false_ne_true

/-- The registers of the local APIC at 0xfee00000 are accessed through the cache. -/
theorem apic_cached : ∃ p, walk (makeTables fun _ => 0) BOOT_PAGE_TBL_BASE (mmioAddress 0xfee00000) = some p ∧
    p.address = 0xfee00000 ∧ p.cacheDisable = false :=
  ⟨_, walk_mmio (by decide), rfl, rfl⟩

/-! ### What is overwritten -/

/-- The tables keep to their four pages if and only if the memory from 0 on was already what it
becomes: the page directory pointers, and zeros behind them. -/
theorem tables_stay_iff (m : Memory) :
    (∀ b, ¬ (BOOT_PAGE_TBL_BASE ≤ b ∧ b < BOOT_PAGE_TBL_BASE + 0x4000) → makeTables m b = m b) ↔
      (∀ i < 512, m.load (8 * i) 8 = pdpe i) ∧ ∀ b, 0x1000 ≤ b → b < 0x3000 → m b = 0 := by
  unfold BOOT_PAGE_TBL_BASE
  constructor
  · intro h
    constructor
    · intro i hi
      rw [← makeTables_pdpe (m := m) hi]
      exact (Memory.load_congr fun b _ hb => h b (by omega)).symm
    · intro b hlow hhigh
      rw [← h b (by omega), makeTables_zero hlow hhigh]
  · intro h b hb
    by_cases hpdp : b < 0x1000
    · have hcell : b = 8 * (b / 8) + b % 8 := by omega
      have hlt : b / 8 < 512 := by omega
      rw [hcell, ← Memory.byte_of_load (m := makeTables m) (Nat.mod_lt b (by decide : 0 < 8)),
        ← Memory.byte_of_load (m := m) (Nat.mod_lt b (by decide : 0 < 8)), makeTables_pdpe hlt, h.1 _ hlt]
    · by_cases hzero : b < 0x3000
      · rw [makeTables_zero (by omega) hzero, h.2 b (by omega) hzero]
      · exact makeTables_outside (by omega) (by omega)

theorem ebda_word : (makeTables m).load 0x40e 2 = 0 := by
  have hpdpe : (makeTables m).load 0x408 8 = pdpe 129 := makeTables_pdpe (i := 129) (by decide)
  have hsplit := (makeTables m).load_add 0x408 6 2
  have hsmall : pdpe 129 < 256 ^ 6 := by
    unfold pdpe
    omega
  simp only [Nat.reduceAdd, hpdpe] at hsplit
  omega

/-- The BIOS data area says that the EBDA is at 0x9fc00. -/
def biosData : Memory := fun b => if b = 0x40f then 0x9f else if b = 0x40e then 0xc0 else 0

/-- The word from which `acpi_get_rsdp` takes the EBDA is gone. -/
theorem ebda_overwritten : biosData.load 0x40e 2 = 0x9fc0 ∧ (makeTables biosData).load 0x40e 2 = 0 :=
  ⟨by decide, ebda_word⟩

end Kvi.Boot
