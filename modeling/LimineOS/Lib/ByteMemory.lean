import Mathlib.Data.Set.Lattice
import Mathlib.Order.CompletePartialOrder
import Mathlib.Data.Set.Function
import Mathlib.Order.Interval.Set.Basic
import Mathlib.Logic.Function.Basic
import Mathlib.Tactic.Ring

/-!
# Byte-addressed memory

A memory is a total map from addresses to bytes. Little-endian words of any
width are read and written byte by byte, so the laws below hold for 16-, 32-
and 64-bit fields alike. Agreement of two memories on a set of addresses is
`Set.EqOn`; a frame law says on which set an operation agrees with its input.
-/

namespace ByteMemory

abbrev Byte := BitVec 8

abbrev Mem := Nat → Byte

/-- The `n` addresses from `a` on. -/
def span (a n : Nat) : Set Nat := Set.Ico a (a + n)

@[simp] theorem mem_span : x ∈ span a n ↔ a ≤ x ∧ x < a + n := Iff.rfl

theorem span_disjoint (h : a + n ≤ b ∨ b + k ≤ a) : Disjoint (span a n) (span b k) := by
  rw [Set.disjoint_left]
  rintro x ⟨ha, hn⟩ ⟨hb, hk⟩
  omega

theorem span_subset (h₁ : b ≤ a) (h₂ : a + n ≤ b + k) : span a n ⊆ span b k := by
  rintro x ⟨ha, hn⟩
  exact ⟨by omega, by omega⟩

-- ---------------------------------------------------------------------------
-- Little-endian words
-- ---------------------------------------------------------------------------

def readLE (m : Mem) : Nat → Nat → Nat
  | _, 0 => 0
  | a, n + 1 => (m a).toNat + 256 * readLE m (a + 1) n

def writeLE (m : Mem) : Nat → Nat → Nat → Mem
  | _, 0, _ => m
  | a, n + 1, v => writeLE (Function.update m a (BitVec.ofNat 8 v)) (a + 1) n (v / 256)

theorem readLE_lt (m : Mem) (a n : Nat) : readLE m a n < 256 ^ n := by
  induction n generalizing a with
  | zero => simp [readLE]
  | succ n ih =>
    have hb := (m a).isLt
    have hr := ih (a + 1)
    rw [readLE, Nat.pow_succ]
    omega

theorem readLE_congr (h : Set.EqOn m m' (span a n)) : readLE m a n = readLE m' a n := by
  induction n generalizing a with
  | zero => rfl
  | succ n ih =>
    rw [readLE, readLE, h ⟨le_refl a, by omega⟩, ih (h.mono (span_subset (by omega) (by omega)))]

theorem readLE_eq_zero (h : ∀ x ∈ span a n, m x = 0) : readLE m a n = 0 := by
  induction n generalizing a with
  | zero => rfl
  | succ n ih =>
    rw [readLE, h a ⟨le_refl a, by omega⟩,
      ih fun x hx => h x ⟨by have := hx.1; omega, by have := hx.2; omega⟩]
    rfl

theorem writeLE_eqOn (m : Mem) (a n v : Nat) : Set.EqOn (writeLE m a n v) m (span a n)ᶜ := by
  induction n generalizing m a v with
  | zero => exact fun _ _ => rfl
  | succ n ih =>
    intro x hx
    have hx' : ¬(a ≤ x ∧ x < a + (n + 1)) := hx
    have hne : x ≠ a := by omega
    rw [writeLE, ih _ _ _ (fun hs => hx' ⟨by have := hs.1; omega, by have := hs.2; omega⟩),
      Function.update_of_ne hne]

theorem writeLE_of_not_mem (h : x ∉ span a n) : writeLE m a n v x = m x := writeLE_eqOn m a n v h

theorem readLE_writeLE_self (m : Mem) (a n v : Nat) : readLE (writeLE m a n v) a n = v % 256 ^ n := by
  induction n generalizing m a v with
  | zero => simp [readLE, Nat.mod_one]
  | succ n ih =>
    have hfirst : writeLE m a (n + 1) v a = BitVec.ofNat 8 v := by
      rw [writeLE, writeLE_of_not_mem (fun hs => by have := hs.1; omega), Function.update_self]
    rw [readLE, hfirst, writeLE, ih, BitVec.toNat_ofNat, Nat.pow_succ 256 n, Nat.mul_comm (256 ^ n),
      Nat.mod_mul]

theorem readLE_writeLE_disjoint (h : Disjoint (span b k) (span a n)) :
    readLE (writeLE m a n v) b k = readLE m b k :=
  readLE_congr ((writeLE_eqOn m a n v).mono (Set.disjoint_left.mp h))

theorem writeLE_readLE (m m' : Mem) (a b n : Nat) :
    writeLE m a n (readLE m' b n) x = if a ≤ x ∧ x < a + n then m' (b + (x - a)) else m x := by
  induction n generalizing m a b with
  | zero => rw [writeLE, if_neg (by omega)]
  | succ n ih =>
    have hlow : BitVec.ofNat 8 ((m' b).toNat + 256 * readLE m' (b + 1) n) = m' b := by
      apply BitVec.eq_of_toNat_eq
      rw [BitVec.toNat_ofNat, Nat.add_mul_mod_self_left, Nat.mod_eq_of_lt (m' b).isLt]
    have hhigh : ((m' b).toNat + 256 * readLE m' (b + 1) n) / 256 = readLE m' (b + 1) n := by
      have hb := (m' b).isLt
      omega
    rw [readLE, writeLE, hlow, hhigh, ih]
    by_cases hx : x = a
    · subst hx
      rw [if_neg (by omega), if_pos (by omega), Function.update_self, Nat.sub_self, Nat.add_zero]
    · by_cases hin : a + 1 ≤ x ∧ x < a + 1 + n
      · rw [if_pos hin, if_pos (by omega)]
        exact congrArg m' (by omega)
      · rw [if_neg hin, if_neg (by omega), Function.update_of_ne hx]

end ByteMemory
