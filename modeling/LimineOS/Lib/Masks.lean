import Mathlib.Data.Nat.Bitwise

/-!
# Masks of the high bits, and alignment

`above w k` has the bits from `k` on. It is what a register keeps whose bits
below `k` are fixed, and its complement and increment is `2 ^ k`. `padding k x`
is the way from `x` to the next multiple of `2 ^ k`.
-/

namespace BitMask

def above (w k : Nat) : BitVec w := BitVec.allOnes w <<< k

section
variable {w k n i : Nat} {x t : BitVec w}

theorem getLsbD_above (hi : i < w) : (above w k).getLsbD i = decide (k ≤ i) := by
  rw [above, BitVec.getLsbD_shiftLeft, BitVec.getLsbD_allOnes]
  simp only [hi, decide_true, Bool.true_and, show i - k < w by omega, Bool.and_true]
  exact (decide_not ..).symm.trans (decide_eq_decide.mpr Nat.not_lt)

theorem getLsbD_of_aligned (hx : x.toNat % 2 ^ k = 0) (hi : i < k) : x.getLsbD i = false := by
  obtain ⟨m, hm⟩ := Nat.dvd_of_mod_eq_zero hx
  rw [BitVec.getLsbD, hm, Nat.testBit_two_pow_mul]
  simp [Nat.not_le.mpr hi]

theorem getLsbD_of_lt (ht : t.toNat < 2 ^ k) (hi : k ≤ i) : t.getLsbD i = false :=
  Nat.testBit_lt_two_pow (Nat.lt_of_lt_of_le ht (Nat.pow_le_pow_right (by decide) hi))

theorem or_and_above (hx : x.toNat % 2 ^ k = 0) (ht : t.toNat < 2 ^ k) :
    (x ||| t) &&& above w k = x := by
  refine BitVec.eq_of_getLsbD_eq fun i hi => ?_
  rw [BitVec.getLsbD_and, BitVec.getLsbD_or, getLsbD_above hi]
  rcases Nat.lt_or_ge i k with hlt | hge
  · rw [getLsbD_of_aligned hx hlt, decide_eq_false (Nat.not_le.mpr hlt), Bool.and_false]
  · rw [getLsbD_of_lt ht hge, decide_eq_true hge, Bool.or_false, Bool.and_true]

theorem or_and_not_above (hx : x.toNat % 2 ^ k = 0) (ht : t.toNat < 2 ^ k) :
    (x ||| t) &&& ~~~above w k = t := by
  refine BitVec.eq_of_getLsbD_eq fun i hi => ?_
  rw [BitVec.getLsbD_and, BitVec.getLsbD_or, BitVec.getLsbD_not, getLsbD_above hi,
    decide_eq_true hi, Bool.true_and]
  rcases Nat.lt_or_ge i k with hlt | hge
  · rw [getLsbD_of_aligned hx hlt, decide_eq_false (Nat.not_le.mpr hlt), Bool.false_or,
      Bool.not_false, Bool.and_true]
  · rw [getLsbD_of_lt ht hge, decide_eq_true hge, Bool.not_true, Bool.and_false]

theorem above_mod (hn : n ≤ k) (hw : n ≤ w) : (above w k).toNat % 2 ^ n = 0 := by
  refine Nat.mod_eq_zero_of_dvd ?_
  rw [above, BitVec.toNat_shiftLeft, Nat.shiftLeft_eq]
  exact (Nat.dvd_mod_iff (Nat.pow_dvd_pow 2 hw)).mpr (Dvd.dvd.mul_left (Nat.pow_dvd_pow 2 hn) _)

theorem not_above_add_one : ~~~above w k + 1 = BitVec.ofNat w (2 ^ k) := by
  have hnot : ~~~above w k = BitVec.ofNat w (2 ^ k - 1) := by
    refine BitVec.eq_of_getLsbD_eq fun i hi => ?_
    rw [BitVec.getLsbD_not, getLsbD_above hi, BitVec.getLsbD_ofNat, Nat.testBit_two_pow_sub_one,
      ← decide_not]
    exact congrArg (_ && ·) (decide_eq_decide.mpr Nat.not_le)
  rw [hnot, ← Nat.sub_add_cancel (Nat.two_pow_pos k), BitVec.ofNat_add, Nat.add_sub_cancel]
  rfl

theorem setWidth_above {v : Nat} (hv : v ≤ w) : (above w k).setWidth v = above v k := by
  refine BitVec.eq_of_getLsbD_eq fun i hi => ?_
  rw [BitVec.getLsbD_setWidth, getLsbD_above hi, getLsbD_above (hi.trans_le hv), decide_eq_true hi,
    Bool.true_and]

theorem halves_or (x : BitVec 64) :
    ((x >>> 32).setWidth 32).setWidth 64 <<< 32 ||| (x.setWidth 32).setWidth 64 = x := by
  refine BitVec.eq_of_getLsbD_eq fun i hi => ?_
  rcases Nat.lt_or_ge i 32 with hlt | hge
  · simp [hlt, hi]
  · simp [Nat.not_lt.mpr hge, hi,
      show i - 32 < 32 by omega, show i - 32 < 64 by omega, show 32 + (i - 32) = i by omega]

theorem and_pow_ne_zero_iff (hi : i < w) : x &&& BitVec.twoPow w i ≠ 0 ↔ x.getLsbD i = true := by
  rw [BitVec.and_twoPow]
  cases x.getLsbD i with
  | false => simp
  | true =>
    have hne : BitVec.twoPow w i ≠ 0 := by
      intro h
      have hbit := congrArg (BitVec.getLsbD · i) h
      simp [hi] at hbit
    exact iff_of_true hne rfl

theorem toNat_and_low (hx : t.toNat = 2 ^ k - 1) : (x &&& t).toNat = x.toNat % 2 ^ k := by
  rw [BitVec.toNat_and, hx, Nat.and_two_pow_sub_one_eq_mod]

end

-- ---------------------------------------------------------------------------
-- Alignment
-- ---------------------------------------------------------------------------

section
variable {k x d : Nat}

def padding (k x : Nat) : Nat := (2 ^ k - x % 2 ^ k) % 2 ^ k

theorem add_padding_mod : (x + padding k x) % 2 ^ k = 0 := by
  have hlt : x % 2 ^ k < 2 ^ k := Nat.mod_lt _ (Nat.two_pow_pos k)
  rw [padding, Nat.add_mod_mod, ← Nat.mod_add_mod, Nat.add_sub_cancel' hlt.le, Nat.mod_self]

theorem padding_le (hd : (x + d) % 2 ^ k = 0) : padding k x ≤ d := by
  have hlt : x % 2 ^ k < 2 ^ k := Nat.mod_lt _ (Nat.two_pow_pos k)
  have hdlt : d % 2 ^ k < 2 ^ k := Nat.mod_lt _ (Nat.two_pow_pos k)
  have hd' : (x % 2 ^ k + d % 2 ^ k) % 2 ^ k = 0 := by rwa [← Nat.add_mod]
  refine le_trans ?_ (Nat.mod_le d (2 ^ k))
  rw [padding]
  generalize x % 2 ^ k = a at *
  generalize d % 2 ^ k = b at *
  generalize 2 ^ k = n at *
  rcases Nat.eq_zero_or_pos a with rfl | ha
  · simp
  · rw [Nat.mod_eq_of_lt (by omega)]
    by_contra hlt'
    rw [Nat.mod_eq_of_lt (by omega)] at hd'
    omega

end

end BitMask
