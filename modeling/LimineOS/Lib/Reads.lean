import LimineOS.Lib.Layout
import LimineOS.Lib.Logged

/-!
# Reads with a log of the addresses

Words and byte strings read from memory byte by byte, with a log of the
addresses. What is read is what the functions without a log read, and the log
is the range that was asked for, so that a reader's bounds follow from the
ranges it asks for.
-/

namespace ByteMemory

open Logged

def readByteL (m : Mem) (a : Nat) : Logged Nat Byte := use a (m a)

def readLEL (m : Mem) : Nat → Nat → Logged Nat Nat
  | _, 0 => pure 0
  | a, n + 1 => do
    let b ← readByteL m a
    let rest ← readLEL m (a + 1) n
    pure (b.toNat + 256 * rest)

def readBytesL (m : Mem) : Nat → Nat → Logged Nat (List Byte)
  | _, 0 => pure []
  | a, n + 1 => do
    let b ← readByteL m a
    let rest ← readBytesL m (a + 1) n
    pure (b :: rest)

variable {m : Mem} {a b n k i : Nat}

theorem span_succ : i ∈ span a (n + 1) ↔ i = a ∨ i ∈ span (a + 1) n := by
  rw [mem_span, mem_span]
  omega

theorem forall_span_iff (h : 0 < n) : (∀ i ∈ span a n, i ∈ span b k) ↔ b ≤ a ∧ a + n ≤ b + k := by
  constructor
  · intro hall
    obtain ⟨hfirst, -⟩ := hall a ⟨le_refl a, by omega⟩
    obtain ⟨-, hlast⟩ := hall (a + (n - 1)) ⟨by omega, by omega⟩
    exact ⟨hfirst, by omega⟩
  · rintro ⟨h₁, h₂⟩ i hi
    exact span_subset h₁ h₂ hi

@[simp] theorem readLEL_val : (readLEL m a n).val = readLE m a n := by
  induction n generalizing a with
  | zero => rfl
  | succ n ih => rw [readLEL, val_bind, val_bind, ih, val_pure, readLE, readByteL, val_use]

theorem mem_log_readLEL : i ∈ (readLEL m a n).log ↔ i ∈ span a n := by
  induction n generalizing a with
  | zero => exact iff_of_false List.not_mem_nil fun hi => by rw [mem_span] at hi; omega
  | succ n ih =>
    rw [readLEL, log_bind, log_bind, log_pure, List.append_nil, List.mem_append, ih, span_succ,
      readByteL, log_use, List.mem_singleton]

@[simp] theorem readBytesL_val : (readBytesL m a n).val = (List.range n).map fun i => m (a + i) := by
  induction n generalizing a with
  | zero => rfl
  | succ n ih =>
    rw [readBytesL, val_bind, val_bind, ih, val_pure, readByteL, val_use, List.range_succ_eq_map,
      List.map_cons, List.map_map]
    simp only [Nat.add_zero, Function.comp_def, Nat.succ_eq_add_one, Nat.add_assoc, Nat.add_comm 1]

theorem mem_log_readBytesL : i ∈ (readBytesL m a n).log ↔ i ∈ span a n := by
  induction n generalizing a with
  | zero => exact iff_of_false List.not_mem_nil fun hi => by rw [mem_span] at hi; omega
  | succ n ih =>
    rw [readBytesL, log_bind, log_bind, log_pure, List.append_nil, List.mem_append, ih, span_succ,
      readByteL, log_use, List.mem_singleton]

-- ---------------------------------------------------------------------------
-- Byte strings
-- ---------------------------------------------------------------------------

def bytesMem (bs : List Byte) : Mem := fun i => bs.getD i 0

theorem holds_bytesMem (bs : List Byte) : Holds (bytesMem bs) 0 bs := by
  intro i b hb
  rw [bytesMem, Nat.zero_add, List.getD_eq_getElem?_getD, hb]
  rfl

theorem Holds.apply {bs : List Byte} (h : Holds m a bs) (hk : k < bs.length) :
    m (a + k) = bytesMem bs k := by
  have hget := List.getElem?_eq_getElem hk
  rw [h k _ hget, bytesMem, List.getD_eq_getElem?_getD, hget]
  rfl

theorem Holds.readLE_eq {bs : List Byte} (h : Holds m a bs) (hin : k + n ≤ bs.length) :
    ByteMemory.readLE m (a + k) n = ByteMemory.readLE (bytesMem bs) k n := by
  induction n generalizing k with
  | zero => rfl
  | succ n ih =>
    rw [ByteMemory.readLE, ByteMemory.readLE, h.apply (by omega), Nat.add_assoc,
      ih (k := k + 1) (by omega)]

end ByteMemory
