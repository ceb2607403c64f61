import LimineOS.Util

/-!
# The page bitmap

One bit a page, eight to a byte, most significant bit first, in the bytes
from `buffer` on. `get_set` is the whole interface: below the bit masks, the
packed bytes are a map from page indices to booleans.
-/

namespace LimineOS

open ByteMemory

structure Bitmap where
  buffer : Nat
  deriving DecidableEq, Repr

namespace Bitmap

def bitindexer (index : Nat) : Byte := 0b10000000#8 >>> (index % 8)

def set (b : Bitmap) (ram : Mem) (index : Nat) (value : Bool) : Mem :=
  let bytei := index / 8
  let cleared := ram (b.buffer + bytei) &&& ~~~bitindexer index
  Function.update ram (b.buffer + bytei) (if value then cleared ||| bitindexer index else cleared)

def get (b : Bitmap) (ram : Mem) (index : Nat) : Bool :=
  ram (b.buffer + index / 8) &&& bitindexer index != 0

def setRange (b : Bitmap) : Mem → Nat → Nat → Bool → Mem
  | ram, _, 0, _ => ram
  | ram, first, count + 1, value => b.setRange (b.set ram first value) (first + 1) count value

theorem bitindexer_getLsbD (index k : Nat) :
    (bitindexer index).getLsbD k = decide (k = 7 - index % 8) := by
  have h128 : (0b10000000#8).getLsbD (index % 8 + k) = decide (index % 8 + k = 7) := by
    rw [show (0b10000000#8) = BitVec.twoPow 8 7 from rfl, BitVec.getLsbD_twoPow]
    simp [eq_comm]
  rw [bitindexer, BitVec.getLsbD_ushiftRight, h128, decide_eq_decide]
  omega

theorem and_bitindexer (x : Byte) (index : Nat) :
    (x &&& bitindexer index != 0) = x.getLsbD (7 - index % 8) := by
  rw [Bool.eq_iff_iff, bne_iff_ne, ne_eq, BitVec.eq_of_getLsbD_eq_iff]
  simp only [BitVec.getLsbD_and, bitindexer_getLsbD, not_forall]
  constructor
  · rintro ⟨k, _, hk⟩
    by_cases he : k = 7 - index % 8 <;> simp_all
  · intro hx
    exact ⟨7 - index % 8, by omega, by simp [hx]⟩

theorem get_eq (b : Bitmap) (ram : Mem) (index : Nat) :
    b.get ram index = (ram (b.buffer + index / 8)).getLsbD (7 - index % 8) := and_bitindexer _ _

theorem get_set (b : Bitmap) (ram : Mem) (i j : Nat) (value : Bool) :
    b.get (b.set ram i value) j = if j = i then value else b.get ram j := by
  rw [get_eq, get_eq, set]
  by_cases hbyte : j / 8 = i / 8
  · rw [hbyte, Function.update_self]
    have hbit : (7 - j % 8 = 7 - i % 8) ↔ j = i := by omega
    cases value <;>
      simp only [Bool.false_eq_true, ↓reduceIte, BitVec.getLsbD_or, BitVec.getLsbD_and,
        BitVec.getLsbD_not, bitindexer_getLsbD, hbit] <;>
      split_ifs with h <;> simp [h] <;> omega
  · rw [Function.update_of_ne (by omega), if_neg (by rintro rfl; exact hbyte rfl)]

theorem get_setRange (b : Bitmap) (ram : Mem) (first count j : Nat) (value : Bool) :
    b.get (b.setRange ram first count value) j =
      if first ≤ j ∧ j < first + count then value else b.get ram j := by
  induction count generalizing ram first with
  | zero => rw [setRange, if_neg (by omega)]
  | succ count ih =>
    rw [setRange, ih, get_set]
    by_cases hj : j = first
    · rw [if_neg (by omega), if_pos hj, if_pos (by omega)]
    · rw [if_neg hj]
      exact if_congr (by omega) rfl rfl

def bytes (b : Bitmap) (limit : Nat) : Set Nat := span b.buffer ((limit + 7) / 8)

theorem get_congr {b : Bitmap} (h : Set.EqOn ram ram' (b.bytes limit)) (hj : j < limit) :
    b.get ram j = b.get ram' j := by
  rw [get, get, h ⟨by omega, by omega⟩]

theorem set_eqOn (b : Bitmap) (ram : Mem) (value : Bool) (hi : i < limit) :
    Set.EqOn (b.set ram i value) ram (b.bytes limit)ᶜ := by
  intro x hx
  refine Function.update_of_ne ?_ _ _
  rintro rfl
  exact hx ⟨by omega, by omega⟩

theorem setRange_eqOn (b : Bitmap) (ram : Mem) (value : Bool) (h : first + count ≤ limit) :
    Set.EqOn (b.setRange ram first count value) ram (b.bytes limit)ᶜ := by
  induction count generalizing ram first with
  | zero => exact fun _ _ => rfl
  | succ count ih =>
    exact (ih _ (by omega)).trans (b.set_eqOn ram value (by omega))

-- ---------------------------------------------------------------------------
-- Any sequence of `Set`
-- ---------------------------------------------------------------------------

def setAll (b : Bitmap) (ram : Mem) (sets : List (Nat × Bool)) : Mem :=
  sets.foldl (fun ram s => b.set ram s.1 s.2) ram

theorem setAll_append (b : Bitmap) (ram : Mem) (sets sets' : List (Nat × Bool)) :
    b.setAll ram (sets ++ sets') = b.setAll (b.setAll ram sets) sets' := List.foldl_append

theorem get_setAll_of_ne (b : Bitmap) (ram : Mem) {sets : List (Nat × Bool)}
    (hne : ∀ s ∈ sets, s.1 ≠ j) :
    b.get (b.setAll ram sets) j = b.get ram j := by
  induction sets generalizing ram with
  | nil => rfl
  | cons s sets ih =>
    rw [List.forall_mem_cons] at hne
    exact (ih (b.set ram s.1 s.2) hne.2).trans ((b.get_set ram s.1 j s.2).trans (if_neg hne.1.symm))

theorem setAll_eqOn (b : Bitmap) (ram : Mem) {sets : List (Nat × Bool)}
    (hin : ∀ s ∈ sets, s.1 < limit) :
    Set.EqOn (b.setAll ram sets) ram (b.bytes limit)ᶜ := by
  induction sets generalizing ram with
  | nil => exact fun _ _ => rfl
  | cons s sets ih =>
    rw [List.forall_mem_cons] at hin
    exact (ih (b.set ram s.1 s.2) hin.2).trans (b.set_eqOn ram s.2 hin.1)

/-- In a buffer of `size` bytes, an index has the boolean of its last `Set`, or the
bit of the initial buffer without one, and nothing else changes. -/
theorem setAll_isMap (b : Bitmap) (ram : Mem) (size : Nat) {sets : List (Nat × Bool)}
    (hin : ∀ s ∈ sets, s.1 < 8 * size) :
    (∀ before j value after, sets = before ++ (j, value) :: after → (∀ s ∈ after, s.1 ≠ j) →
      b.get (b.setAll ram sets) j = value) ∧
    (∀ j, (∀ s ∈ sets, s.1 ≠ j) →
      b.get (b.setAll ram sets) j = (ram (b.buffer + j / 8)).getLsbD (7 - j % 8)) ∧
    (∀ i j value, j ≠ i → b.get (b.set ram i value) j = b.get ram j) ∧
    Set.EqOn (b.setAll ram sets) ram (span b.buffer size)ᶜ := by
  refine ⟨?_, ?_, ?_, ?_⟩
  · rintro before j value after rfl hafter
    rw [setAll_append]
    refine (b.get_setAll_of_ne (b.set (b.setAll ram before) j value) hafter).trans ?_
    rw [get_set, if_pos rfl]
  · intro j hne
    rw [get_setAll_of_ne b ram hne, get_eq]
  · intro i j value hne
    rw [get_set, if_neg hne]
  · have hbytes : b.bytes (8 * size) = span b.buffer size := by
      rw [bytes, show (8 * size + 7) / 8 = size by omega]
    exact hbytes ▸ b.setAll_eqOn ram hin

theorem setAll_isMap_two :
    Bitmap.get ⟨0⟩ (Bitmap.setAll ⟨0⟩ (fun _ => 0xFF) [(3, true), (3, false), (9, true)]) 3 = false :=
  (setAll_isMap ⟨0⟩ (fun _ => 0xFF) 2 (by decide)).1 [(3, true)] 3 false [(9, true)] rfl (by decide)

end Bitmap

end LimineOS
