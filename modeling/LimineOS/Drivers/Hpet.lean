import LimineOS.Lib.Fuel
import Mathlib.Order.Monotone.Basic
import Mathlib.Algebra.Ring.Nat

/-!
# `msleep`

The loop compares the counter with a target, which counts whole ticks for each
millisecond. Either side of the comparison may have passed 2^64.
-/

namespace LimineOS

open Fueled

/-- The registers that `msleep` reads. `counter k` is the counter at the `k`-th reading. -/
structure HpetRegs where
  capabilities : BitVec 64
  counter : Nat → BitVec 64

namespace HpetRegs

def period (hpetRegs : HpetRegs) : BitVec 32 := (hpetRegs.capabilities >>> 32).setWidth 32

def start (hpetRegs : HpetRegs) : Nat := (hpetRegs.counter 0).toNat

def distance (hpetRegs : HpetRegs) (k : Nat) : Nat := (hpetRegs.counter k - hpetRegs.counter 0).toNat

/-- The ticks in `ms` milliseconds, with those for each millisecond rounded down. -/
def wholeTicks (hpetRegs : HpetRegs) (ms : BitVec 64) : Nat :=
  ms.toNat * (1000000000000 / hpetRegs.period.toNat)

def LongEnough (hpetRegs : HpetRegs) (ms : BitVec 64) (k : Nat) : Prop :=
  ms.toNat * 10 ^ 12 ≤ hpetRegs.distance k * hpetRegs.period.toNat

end HpetRegs

/-- The result is the reading at which the loop is left. -/
def msleep (hpetRegs : HpetRegs) (ms : BitVec 64) : Fueled Nat :=
  let ticks := hpetRegs.counter 0 + ms * (1000000000000 / hpetRegs.period.setWidth 64)
  wait (fun k => hpetRegs.counter k < ticks) 1

/-- The loop is left only when enough time has passed, and as soon as it is seen to have passed. -/
def SleepsLongEnough (hpetRegs : HpetRegs) (ms : BitVec 64) : Prop :=
  Safe (msleep hpetRegs ms) (hpetRegs.LongEnough ms) ∧
    ∀ k, 1 ≤ k → hpetRegs.LongEnough ms k → Ends (msleep hpetRegs ms) fun j => j ≤ k

def HpetRegs.Short (hpetRegs : HpetRegs) (ms : BitVec 64) (k : Nat) : Prop :=
  hpetRegs.distance k * hpetRegs.period.toNat < ms.toNat * 10 ^ 12

/-- The counter has passed 2^64 if and only if the target has, except for a counter that
has reached the target before the time is over. -/
def Comparable (hpetRegs : HpetRegs) (ms : BitVec 64) (k : Nat) : Prop :=
  (hpetRegs.start + hpetRegs.distance k < 2 ^ 64 ↔ hpetRegs.start + hpetRegs.wholeTicks ms < 2 ^ 64) ↔
    ¬(hpetRegs.wholeTicks ms ≤ hpetRegs.distance k ∧ hpetRegs.Short ms k)

section
variable {hpetRegs : HpetRegs} {ms : BitVec 64} {k : Nat}

namespace HpetRegs

theorem distance_lt : hpetRegs.distance k < 2 ^ 64 := BitVec.isLt _

theorem counter_toNat :
    (hpetRegs.counter k).toNat = (hpetRegs.start + hpetRegs.distance k) % 2 ^ 64 := by
  rw [start, distance, ← BitVec.toNat_add, BitVec.add_comm, BitVec.sub_add_cancel]

theorem wholeTicks_le : hpetRegs.wholeTicks ms * hpetRegs.period.toNat ≤ ms.toNat * 10 ^ 12 := by
  rw [wholeTicks, Nat.mul_assoc]
  exact Nat.mul_le_mul_left _ (Nat.div_mul_le_self _ _)

theorem wholeTicks_eq (hms : ms = 0 ∨ hpetRegs.period.toNat ∣ 10 ^ 12) :
    hpetRegs.wholeTicks ms * hpetRegs.period.toNat = ms.toNat * 10 ^ 12 := by
  rw [wholeTicks, Nat.mul_assoc]
  rcases hms with rfl | hdvd
  · exact (Nat.zero_mul _).trans (Nat.zero_mul _).symm
  · exact congrArg (ms.toNat * ·) (Nat.div_mul_cancel hdvd)

theorem eq_of_wholeTicks (h : ms.toNat * 10 ^ 12 ≤ hpetRegs.wholeTicks ms * hpetRegs.period.toNat) :
    ms = 0 ∨ hpetRegs.period.toNat ∣ 10 ^ 12 := by
  rw [wholeTicks, Nat.mul_assoc] at h
  rcases Nat.eq_zero_or_pos ms.toNat with hzero | hpos
  · exact .inl (BitVec.eq_of_toNat_eq hzero)
  · have hle := Nat.div_mul_le_self (10 ^ 12) hpetRegs.period.toNat
    have hge : 10 ^ 12 ≤ 10 ^ 12 / hpetRegs.period.toNat * hpetRegs.period.toNat :=
      Nat.le_of_mul_le_mul_left h hpos
    exact .inr ⟨_, (Nat.le_antisymm hge hle).trans (Nat.mul_comm _ _)⟩

theorem not_longEnough : ¬hpetRegs.LongEnough ms k ↔ hpetRegs.Short ms k := Nat.not_le

theorem LongEnough.reached (hperiod : 0 < hpetRegs.period.toNat) (h : hpetRegs.LongEnough ms k) :
    hpetRegs.wholeTicks ms ≤ hpetRegs.distance k :=
  Nat.le_of_mul_le_mul_right (wholeTicks_le.trans h) hperiod

end HpetRegs

open HpetRegs

theorem ticks_toNat (hfits : hpetRegs.wholeTicks ms < 2 ^ 64) :
    (hpetRegs.counter 0 + ms * (1000000000000 / hpetRegs.period.setWidth 64)).toNat =
      (hpetRegs.start + hpetRegs.wholeTicks ms) % 2 ^ 64 := by
  have hquotient : (1000000000000 / hpetRegs.period.setWidth 64 : BitVec 64).toNat =
      1000000000000 / hpetRegs.period.toNat := by
    rw [BitVec.toNat_udiv, BitVec.toNat_setWidth_of_le (by decide)]
    rfl
  rw [BitVec.toNat_add, BitVec.toNat_mul, hquotient, ← wholeTicks, Nat.mod_eq_of_lt hfits, start]

theorem wrapped_lt_iff {start a b : Nat} (hstart : start < 2 ^ 64) (ha : a < 2 ^ 64) (hb : b < 2 ^ 64) :
    ¬(start + a) % 2 ^ 64 < (start + b) % 2 ^ 64 ↔
      (b ≤ a ↔ (start + a < 2 ^ 64 ↔ start + b < 2 ^ 64)) := by
  omega

theorem left_iff (hfits : hpetRegs.wholeTicks ms < 2 ^ 64) :
    ¬hpetRegs.counter k < hpetRegs.counter 0 + ms * (1000000000000 / hpetRegs.period.setWidth 64) ↔
      (hpetRegs.wholeTicks ms ≤ hpetRegs.distance k ↔
        (hpetRegs.start + hpetRegs.distance k < 2 ^ 64 ↔
          hpetRegs.start + hpetRegs.wholeTicks ms < 2 ^ 64)) := by
  rw [BitVec.lt_def, counter_toNat, ticks_toNat hfits]
  exact wrapped_lt_iff (BitVec.isLt _) distance_lt hfits

theorem comparable_iff (hpetRegs : HpetRegs) (ms : BitVec 64) (hperiod : 0 < hpetRegs.period.toNat)
    (hfits : hpetRegs.wholeTicks ms < 2 ^ 64) :
    (¬hpetRegs.counter k < hpetRegs.counter 0 + ms * (1000000000000 / hpetRegs.period.setWidth 64) ↔
      hpetRegs.LongEnough ms k) ↔ Comparable hpetRegs ms k := by
  have hreached : hpetRegs.LongEnough ms k → hpetRegs.wholeTicks ms ≤ hpetRegs.distance k :=
    LongEnough.reached hperiod
  rw [left_iff hfits, Comparable, ← not_longEnough]
  by_cases hlong : hpetRegs.LongEnough ms k
  · simp [hlong, hreached hlong]
  · by_cases htarget : hpetRegs.wholeTicks ms ≤ hpetRegs.distance k <;> simp [hlong, htarget]

theorem sleepsLongEnough_iff (hperiod : 0 < hpetRegs.period.toNat)
    (hfits : hpetRegs.wholeTicks ms < 2 ^ 64) :
    SleepsLongEnough hpetRegs ms ↔
      ∀ k, 1 ≤ k → (∀ j, 1 ≤ j → j < k → hpetRegs.Short ms j) → Comparable hpetRegs ms k := by
  simp only [← not_longEnough]
  exact wait_exact_iff.trans (forall₃_congr fun k _ _ => comparable_iff hpetRegs ms hperiod hfits)

def tenNanoseconds : HpetRegs := ⟨10000000 <<< 32, fun k => BitVec.ofNat 64 (k * 100000)⟩

theorem sleepsLongEnough_tenNanoseconds : SleepsLongEnough tenNanoseconds 1 := by
  refine (sleepsLongEnough_iff (by decide) (by decide)).mpr fun k hk hbefore => ?_
  have hfirst : ¬tenNanoseconds.Short 1 1 := by
    unfold Short
    decide
  obtain rfl | hlt := Nat.eq_or_lt_of_le hk
  · simp only [Comparable, hfirst, and_false, not_false_eq_true, iff_true]
    decide
  · exact absurd (hbefore 1 (Nat.le_refl 1) hlt) hfirst

/-- A common clock of 14.318 MHz, from 0. The target of a millisecond is 14318 ticks, and
those take 68 ns less. -/
def fourteenMegahertz : HpetRegs := ⟨69841279 <<< 32, fun k => if k = 0 then 0 else 14318⟩

theorem wakes_early :
    fourteenMegahertz.period = 69841279 ∧ Monotone fourteenMegahertz.distance ∧
      ¬SleepsLongEnough fourteenMegahertz 1 := by
  have hdistance (k : Nat) : fourteenMegahertz.distance k = if k = 0 then 0 else 14318 := by
    by_cases hk : k = 0 <;> simp [HpetRegs.distance, fourteenMegahertz, hk]
  refine ⟨by decide, fun j k hjk => ?_, fun hsleeps => ?_⟩
  · rw [hdistance, hdistance]
    split_ifs <;> omega
  · have hlong : fourteenMegahertz.LongEnough 1 1 := hsleeps.1 1 1 (by decide)
    exact absurd hlong (by unfold LongEnough; decide)

-- ---------------------------------------------------------------------------
-- Any readings
-- ---------------------------------------------------------------------------

def HpetRegs.withCounter (hpetRegs : HpetRegs) (counter : Nat → BitVec 64) : HpetRegs :=
  { hpetRegs with counter := counter }

def stops (start distance : BitVec 64) (k : Nat) : BitVec 64 :=
  if k = 0 then start else distance + start

theorem stops_distance {start distance : BitVec 64} :
    (hpetRegs.withCounter (stops start distance)).distance k = if k = 0 then 0 else distance.toNat := by
  rw [HpetRegs.distance, HpetRegs.withCounter]
  by_cases hk : k = 0
  · simp [hk]
  · simp only [stops, hk, if_false, if_true, BitVec.add_sub_cancel]

theorem stops_monotone {start distance : BitVec 64} :
    Monotone (hpetRegs.withCounter (stops start distance)).distance := by
  intro j k hjk
  rw [stops_distance, stops_distance]
  split_ifs <;> omega

/-- For which periods, counters and times `msleep` is right whatever it reads. -/
theorem sleepsLongEnough_always_iff (hperiod : 0 < hpetRegs.period.toNat)
    (hfits : ms.toNat * 10 ^ 12 ≤ (2 ^ 64 - 1) * hpetRegs.period.toNat) :
    (∀ counter, counter 0 = hpetRegs.counter 0 → Monotone (hpetRegs.withCounter counter).distance →
      SleepsLongEnough (hpetRegs.withCounter counter) ms) ↔
      hpetRegs.start = 0 ∧ (ms = 0 ∨ hpetRegs.period.toNat ∣ 10 ^ 12) := by
  have hstart : hpetRegs.start < 2 ^ 64 := BitVec.isLt _
  have hticks : hpetRegs.wholeTicks ms < 2 ^ 64 := by
    have := Nat.le_of_mul_le_mul_right (wholeTicks_le.trans hfits) hperiod
    omega
  constructor
  · intro h
    have hcompare (distance : BitVec 64) :
        (hpetRegs.start + distance.toNat < 2 ^ 64 ↔ hpetRegs.start + hpetRegs.wholeTicks ms < 2 ^ 64) ↔
          ¬(hpetRegs.wholeTicks ms ≤ distance.toNat ∧
            distance.toNat * hpetRegs.period.toNat < ms.toNat * 10 ^ 12) := by
      have hsleeps := h (stops (hpetRegs.counter 0) distance) rfl stops_monotone
      have hcomparable :=
        (comparable_iff (hpetRegs.withCounter (stops (hpetRegs.counter 0) distance)) ms hperiod
          hticks).mp
        (wait_exact_iff.mp hsleeps 1 (Nat.le_refl 1) fun j hj hj' => by omega)
      rw [Comparable, Short, stops_distance] at hcomparable
      exact hcomparable
    have hzero : hpetRegs.start = 0 := by
      by_contra hne
      have hlast := hcompare (-1)
      have hnone := hcompare 0
      rw [show (-1 : BitVec 64).toNat = 2 ^ 64 - 1 from rfl] at hlast
      rw [show (0 : BitVec 64).toNat = 0 from rfl] at hnone
      simp only [Nat.not_lt.mpr hfits, and_false, not_false_eq_true, iff_true] at hlast
      omega
    have hexact := hcompare (BitVec.ofNat 64 (hpetRegs.wholeTicks ms))
    rw [BitVec.toNat_ofNat, Nat.mod_eq_of_lt hticks] at hexact
    simp only [iff_self, Nat.le_refl, true_and, true_iff, Nat.not_lt] at hexact
    exact ⟨hzero, eq_of_wholeTicks hexact⟩
  · rintro ⟨hzero, hms⟩ counter hcounter -
    refine wait_exact_iff.mpr fun k _ _ =>
      (comparable_iff (hpetRegs.withCounter counter) ms hperiod hticks).mpr ?_
    have hstart' : (hpetRegs.withCounter counter).start = 0 :=
      (congrArg BitVec.toNat hcounter).trans hzero
    have hdistance : (hpetRegs.withCounter counter).distance k < 2 ^ 64 := distance_lt
    have htarget : (hpetRegs.withCounter counter).wholeTicks ms < 2 ^ 64 := hticks
    have henough : (hpetRegs.withCounter counter).wholeTicks ms ≤
        (hpetRegs.withCounter counter).distance k →
        ¬(hpetRegs.withCounter counter).Short ms k := fun hle =>
      Nat.not_lt.mpr ((wholeTicks_eq hms).symm.le.trans (Nat.mul_le_mul_right _ hle))
    rw [Comparable, hstart']
    simp only [Nat.zero_add, hdistance, htarget, true_iff, not_and]
    exact henough

end

end LimineOS
