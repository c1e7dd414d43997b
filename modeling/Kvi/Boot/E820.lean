import Kvi.Library.Memory
import Kvi.Library.Word

/-! The memory map that `start16` asks the BIOS for.

Each call of `INT 15h`, `AX = E820h` leaves one record in the buffer, after four
bytes that are set aside for its length. The length is stored when the call has
succeeded; the four bytes are passed over before it is known whether it will.
So the two ways out of the loop leave different sizes: a last reply with
`EBX = 0` ends on the last record, a carry ends four bytes after it. -/
namespace Kvi.Boot

def BOOT_E820_BASE : Nat := 0xe000
def BOOT_E820_SIZE : Nat := 0xdff4
def BOOT_PAGE_TBL_BASE : Nat := 0xf000

/-- A successful call: the bytes stored at `ES:DI`, as many as `ECX` says, and the `EBX` to go on
with. -/
structure Reply where
  bytes : List UInt8
  ebx : UInt32
  long : 20 ≤ bytes.length

/-- The loop of `start16`, given what the BIOS answers; no answer is the carry flag. -/
def detectLoop : List (Option Reply) → Memory → Nat → Option (Memory × Nat)
  | [], _, _ => none
  | none :: _, m, edi => some (m, u32 (edi + 4))
  | some r :: rest, m, edi =>
    let edi := u32 (edi + 4)
    let m := (m.write edi r.bytes).store (edi - 4) 4 r.bytes.length
    let edi := u32 (edi + r.bytes.length)
    if r.ebx = 0 then some (m, edi) else detectLoop rest m edi

/-- The part of `start16` that detects the memory layout. -/
def start16 (answers : List (Option Reply)) (m : Memory) : Option Memory :=
  (detectLoop answers m BOOT_E820_BASE).map fun r =>
    r.1.store BOOT_E820_SIZE 4 (u32 (r.2 + 2 ^ 32 - BOOT_E820_BASE))

/-- What the BIOS answers from the first call to the last: replies to go on from, and then one that
does not, or the carry flag. -/
structure Session where
  more : List Reply
  more_ebx : ∀ r ∈ more, r.ebx ≠ 0
  last : Option Reply
  last_ebx : ∀ r ∈ last, r.ebx = 0

namespace Session

def answers (b : Session) : List (Option Reply) := b.more.map some ++ [b.last]

def replies (b : Session) : List Reply := b.more ++ b.last.toList

/-- Set aside by a call that failed. -/
def excess (b : Session) : Nat := if b.last.isSome then 0 else 4

end Session

/-! ### The buffer -/

/-- Bytes that a list of records takes. -/
def span (rs : List Reply) : Nat := (rs.map fun r => 4 + r.bytes.length).sum

/-- The records `rs`, one after the other from `a` on. -/
def Encoded (m : Memory) : Nat → List Reply → Prop
  | _, [] => True
  | a, r :: rs => m.load a 4 = r.bytes.length ∧
      (∀ i < r.bytes.length, m (a + 4 + i) = r.bytes.getD i 0) ∧
      Encoded m (a + (4 + r.bytes.length)) rs

variable {m m' : Memory} {rs : List Reply} {r : Reply} {a : Nat} {b : Session}

@[simp] theorem span_nil : span [] = 0 := rfl

@[simp] theorem span_cons : span (r :: rs) = 4 + r.bytes.length + span rs := by
  simp [span]

/-- Only the bytes of the records count. -/
theorem Encoded.congr (h : Encoded m a rs) (heq : ∀ c, a ≤ c → c < a + span rs → m' c = m c) :
    Encoded m' a rs := by
  induction rs generalizing a with
  | nil => exact trivial
  | cons r rs ih =>
    obtain ⟨hlen, hbytes, hrest⟩ := h
    rw [span_cons] at heq
    refine ⟨?_, fun i hi => ?_, ih hrest fun c hlo hhi => heq c (by omega) (by omega)⟩
    · rw [Memory.load_congr fun c hlo hhi => heq c hlo (by omega), hlen]
    · rw [heq _ (by omega) (by omega), hbytes i hi]

/-- One successful call leaves its record and nothing else. -/
theorem record_written (hlen : r.bytes.length < 2 ^ 32) :
    let m' := (m.write (a + 4) r.bytes).store a 4 r.bytes.length
    m'.load a 4 = r.bytes.length ∧ (∀ i < r.bytes.length, m' (a + 4 + i) = r.bytes.getD i 0) ∧
      ∀ c, c < a → m' c = m c := by
  refine ⟨?_, fun i hi => ?_, fun c hc => ?_⟩
  · rw [Memory.load_store_same]
    exact Nat.mod_eq_of_lt hlen
  · rw [Memory.store_outside (by omega), Memory.write_inside hi]
  · rw [Memory.store_outside (by omega), Memory.write_outside (by omega)]

/-- The loop from any point of the session on, as long as the records stay below the page tables:
they are all in the buffer, and `EDI` is behind the last one by what a failed call set aside. -/
theorem detectLoop_session (hfit : a + span b.replies ≤ BOOT_PAGE_TBL_BASE) :
    ∃ m', detectLoop b.answers m a = some (m', a + span b.replies + b.excess) ∧
      Encoded m' a b.replies ∧ ∀ c, c < a → m' c = m c := by
  obtain ⟨more, hmore, last, hlast⟩ := b
  simp only [Session.answers, Session.replies, Session.excess] at hfit ⊢
  rw [BOOT_PAGE_TBL_BASE] at hfit
  induction more generalizing m a with
  | nil =>
    cases last with
    | none =>
      refine ⟨m, ?_, trivial, fun c _ => rfl⟩
      simp only [List.map_nil, List.nil_append, Option.toList_none, span_nil] at hfit ⊢
      rw [detectLoop, u32_of_lt (by omega)]
      rfl
    | some r =>
      simp only [List.map_nil, List.nil_append, Option.toList_some, span_cons, span_nil] at hfit ⊢
      obtain ⟨hhead, hbytes, hframe⟩ := record_written (m := m) (a := a) (r := r) (by omega)
      refine ⟨_, ?_, ⟨hhead, hbytes, trivial⟩, hframe⟩
      have hebx : r.ebx = 0 := hlast r rfl
      simp only [detectLoop, if_pos hebx]
      rw [u32_of_lt (n := a + 4) (by omega), u32_of_lt (by omega), Nat.add_sub_cancel]
      simp only [Option.isSome_some, if_true, Nat.add_zero, Nat.add_assoc]
  | cons r rest ih =>
    simp only [List.map_cons, List.cons_append, span_cons] at hfit ⊢
    obtain ⟨hhead, hbytes, hframe⟩ := record_written (m := m) (a := a) (r := r) (by omega)
    generalize hm₁ : (m.write (a + 4) r.bytes).store a 4 r.bytes.length = m₁ at *
    obtain ⟨m₂, hloop, henc, hsame⟩ := ih (m := m₁) (a := a + (4 + r.bytes.length))
      (fun r' hr' => hmore r' (List.mem_cons_of_mem _ hr')) (by omega)
    refine ⟨m₂, ?_, ⟨?_, fun i hi => ?_, henc⟩, fun c hc => ?_⟩
    · have hebx : ¬ r.ebx = 0 := hmore r (List.mem_cons_self ..)
      simp only [detectLoop, if_neg hebx]
      rw [u32_of_lt (n := a + 4) (by omega), u32_of_lt (by omega), Nat.add_sub_cancel, hm₁,
        Nat.add_assoc, hloop]
      simp only [Nat.add_assoc]
    · rw [Memory.load_congr fun c _ hhi => hsame c (by omega), hhead]
    · rw [hsame _ (by omega), hbytes i hi]
    · rw [hsame _ (by omega), hframe c hc]

/-- What `start16` leaves: the records from the base on, and a size that counts what a failed call
set aside. -/
theorem start16_session (m : Memory) (hfit : span b.replies ≤ BOOT_PAGE_TBL_BASE - BOOT_E820_BASE) :
    ∃ m', start16 b.answers m = some m' ∧ Encoded m' BOOT_E820_BASE b.replies ∧
      m'.load BOOT_E820_SIZE 4 = span b.replies + b.excess := by
  have hbase : BOOT_E820_BASE + span b.replies ≤ BOOT_PAGE_TBL_BASE := by
    rw [BOOT_PAGE_TBL_BASE, BOOT_E820_BASE] at hfit ⊢
    omega
  have hexcess : b.excess ≤ 4 := by
    rw [Session.excess]
    split <;> omega
  obtain ⟨m₁, hloop, henc, _⟩ := detectLoop_session (m := m) hbase
  rw [start16, hloop]
  refine ⟨_, rfl, henc.congr fun c hlo _ => Memory.store_outside ?_, ?_⟩
  · rw [BOOT_E820_BASE] at hlo
    rw [BOOT_E820_SIZE]
    omega
  · rw [Memory.load_store_same]
    unfold u32
    rw [BOOT_PAGE_TBL_BASE, BOOT_E820_BASE] at hfit
    omega

end Kvi.Boot
