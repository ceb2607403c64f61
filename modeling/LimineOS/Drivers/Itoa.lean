import LimineOS.Lib.Logged
import LimineOS.Lib.Numerals
import LimineOS.Util

/-!
# Formatting integers

`itoa` and `utoa` of `Screen.cpp` write digits into a buffer of their own, from
its end down. `utoa` leaves the last byte alone, which stays the NUL of every
string it makes. `itoa` begins with the last byte, so that its strings go on
behind the buffer unless they are literals (`itoa_formatted_iff`).
-/

namespace LimineOS

open Logged ByteMemory Numerals

def ch (c : Char) : Byte := BitVec.ofNat 8 c.toNat

namespace Screen

abbrev Buffer := Nat → Byte

/-- What `itoa` and `utoa` return: a literal, or a place in the buffer. -/
inductive Text
  | literal (x : List Byte)
  | within (start : Nat)

def hexDigit (d : Nat) : Byte := ("0123456789abcdef".toList.map ch).getD d 0

def digitValue (c : Byte) : Nat := ("0123456789abcdef".toList.map ch).idxOf c

/-- `"0123456789abcdef"[d]`, with the bytes around the literal. -/
def digitChar (around : Int → Byte) (d : Int) : Byte :=
  if 0 ≤ d ∧ d < 16 then hexDigit d.toNat else around d

def store (buf : Buffer) (i : Nat) (c : Byte) : Logged Nat Buffer := use i (Function.update buf i c)

/-- The loop of `itoa` and of `utoa`, with the index that it leaves. -/
def writeDigits (around : Int → Byte) (base : Int) : Nat → Int → Buffer → Logged Nat (Nat × Buffer)
  | 0, _, buf => pure (0, buf)
  | i + 1, val, buf =>
    if val = 0 then pure (i + 1, buf)
    else do
      let buf ← store buf (i + 1) (digitChar around (val.tmod base))
      writeDigits around base i (val.tdiv base) buf

/-- `val = -val` for a negative value. It leaves the most negative one as it is. -/
def magnitude (val : BitVec 64) : BitVec 64 := if val.slt 0 then -val else val

def itoa (around : Int → Byte) (val : BitVec 64) (base : Int) (buf : Buffer) :
    Logged Nat (Text × Buffer) :=
  if val = 0 then pure (.literal [ch '0'], buf)
  else do
    let isNegative := val.slt 0
    let (i, buf) ← writeDigits around base 63 (magnitude val).toInt buf
    if isNegative then do
      let buf ← store buf i (ch '-')
      -- `i--`, and the string begins at `i + 1`
      pure (.within i, buf)
    else pure (.within (i + 1), buf)

def utoa (around : Int → Byte) (val : BitVec 64) (base : Int) (buf : Buffer) :
    Logged Nat (Text × Buffer) :=
  if val = 0 then pure (.literal [ch '0'], buf)
  else do
    let (i, buf) ← writeDigits around base 62 val.toNat buf
    pure (.within (i + 1), buf)

def Text.chars (buf : Buffer) (behind : CStr) : Text → CStr
  | .literal x => cstr x
  | .within start => fun k => if start + k < 64 then buf (start + k) else behind (start + k - 64)

def Text.Holds (buf : Buffer) : Text → List Byte → Prop
  | .literal y, x => y = x
  | .within start, x => start + x.length < 64 ∧ IsStr (CStr.skip buf start) x

def IsSigned (base : Nat) (v : Int) (x : List Byte) : Prop :=
  ∃ ds, IsNumeral base v.natAbs ds ∧ x = (if v < 0 then [ch '-'] else []) ++ ds.map hexDigit

structure Formatted (around : Int → Byte) (val : BitVec 64) (base : Int) (buf : Buffer) : Prop where
  writes : Uses (· < 64) (itoa around val base buf)
  text : ∃ x, (itoa around val base buf).val.1.Holds (itoa around val base buf).val.2 x ∧
    IsSigned base.toNat val.toInt x

-- ---------------------------------------------------------------------------
-- Digits
-- ---------------------------------------------------------------------------

section
variable {around : Int → Byte} {b i n : Nat} {base val : Int} {buf : Buffer}

theorem hexDigit_ne_zero : ∀ {d}, d < 16 → hexDigit d ≠ 0 := by decide

theorem digitValue_hexDigit : ∀ {d}, d < 16 → digitValue (hexDigit d) = d := by decide

theorem digitValue_digits {ds : List Nat} (h : ∀ d ∈ ds, d < 16) :
    (ds.map hexDigit).map digitValue = ds := by
  rw [List.map_map]
  exact (List.map_congr_left fun d hd => digitValue_hexDigit (h d hd)).trans (List.map_id ds)

theorem digitChar_natCast {d : Nat} (hd : d < 16) : digitChar around d = hexDigit d := by
  rw [digitChar, if_pos (by omega), Int.toNat_natCast]

theorem writeDigits_zero : writeDigits around base i 0 buf = pure (i, buf) := by
  cases i <;> rfl

theorem writeDigits_succ (hval : val ≠ 0) :
    (writeDigits around base (i + 1) val buf).val =
      (writeDigits around base i (val.tdiv base)
        (Function.update buf (i + 1) (digitChar around (val.tmod base)))).val := by
  rw [writeDigits, if_neg hval]
  rfl

theorem length_digits_tdiv (hb : 1 < b) (hval : val ≠ 0) :
    (Nat.digits b val.natAbs).length = (Nat.digits b (val.tdiv b).natAbs).length + 1 := by
  rw [Nat.digits_def' hb (Int.natAbs_pos.mpr hval), List.length_cons, Int.natAbs_tdiv]
  rfl

theorem writeDigits_index (hb : 1 < b) :
    (writeDigits around b i val buf).val.1 = i - min (Nat.digits b val.natAbs).length i := by
  induction i generalizing val buf with
  | zero => simp [writeDigits]
  | succ i ih =>
    by_cases hval : val = 0
    · simp [hval, writeDigits_zero]
    · rw [writeDigits_succ hval, ih, length_digits_tdiv hb hval]
      omega

theorem writeDigits_uses : Uses (fun k => k ≠ 0 ∧ k ≤ i) (writeDigits around b i val buf) := by
  induction i generalizing val buf with
  | zero => exact Uses.pure
  | succ i ih =>
    by_cases hval : val = 0
    · rw [hval, writeDigits_zero]
      exact Uses.pure
    · rw [writeDigits, if_neg hval]
      refine Uses.bind (Uses.use ⟨Nat.succ_ne_zero i, le_refl _⟩) (ih.mono fun k hk => ⟨hk.1, by omega⟩)

theorem writeDigits_above {k : Nat} (hk : i < k) :
    (writeDigits around base i val buf).val.2 k = buf k := by
  induction i generalizing val buf with
  | zero => rfl
  | succ i ih =>
    by_cases hval : val = 0
    · rw [hval, writeDigits_zero]
      rfl
    · rw [writeDigits_succ hval, ih (by omega), Function.update_of_ne (by omega)]

theorem writeDigits_digit (hb : 1 < b) (hle : b ≤ 16) {k : Nat} (hk : k < i)
    (hlen : k < (Nat.digits b n).length) :
    (writeDigits around b i n buf).val.2 (i - k) = hexDigit (Nat.digits b n)[k] := by
  induction i generalizing n buf k with
  | zero => omega
  | succ i ih =>
    have hn : n ≠ 0 := by
      rintro rfl
      simp at hlen
    have hdigits : Nat.digits b n = n % b :: Nat.digits b (n / b) :=
      Nat.digits_def' hb (Nat.pos_of_ne_zero hn)
    have htdiv : (n : Int).tdiv b = (n / b : Nat) := rfl
    have htmod : (n : Int).tmod b = (n % b : Nat) := rfl
    rw [writeDigits_succ (by omega), htdiv, htmod]
    cases k with
    | zero =>
      have hmod := Nat.mod_lt n (by omega : 0 < b)
      rw [Nat.sub_zero, writeDigits_above (Nat.lt_succ_self i), Function.update_self,
        digitChar_natCast (by omega)]
      simp only [hdigits, List.getElem_cons_zero]
    | succ k =>
      rw [hdigits, List.length_cons] at hlen
      rw [Nat.add_sub_add_right, ih (by omega) (by omega)]
      simp only [hdigits, List.getElem_cons_succ]

theorem zero_notMem_digits (hb : 1 < b) (hle : b ≤ 16) : 0 ∉ (numeral b n).map hexDigit := by
  intro hmem
  obtain ⟨d, hd, hzero⟩ := List.mem_map.mp hmem
  exact hexDigit_ne_zero (Nat.lt_of_lt_of_le (lt_of_mem_numeral hb hd) hle) hzero

theorem writeDigits_numeral (hb : 1 < b) (hle : b ≤ 16) (hlen : (Nat.digits b n).length ≤ i) {j : Nat}
    (hj : j < (Nat.digits b n).length) :
    (writeDigits around b i n buf).val.2 (i - (Nat.digits b n).length + 1 + j) =
      ((numeral b n).map hexDigit).getD j 0 := by
  have hn : n ≠ 0 := by
    rintro rfl
    simp at hj
  have hindex : i - (Nat.digits b n).length + 1 + j = i - ((Nat.digits b n).length - 1 - j) := by omega
  have hget : ((numeral b n).map hexDigit)[j]? =
      some (hexDigit ((Nat.digits b n)[(Nat.digits b n).length - 1 - j])) := by
    rw [numeral_of_ne_zero hn, List.getElem?_map, List.getElem?_reverse hj,
      List.getElem?_eq_getElem (by omega)]
    rfl
  rw [hindex, writeDigits_digit hb hle (by omega) (by omega), List.getD_eq_getElem?_getD, hget,
    Option.getD_some]

end

-- ---------------------------------------------------------------------------
-- `itoa`
-- ---------------------------------------------------------------------------

section
variable {around : Int → Byte} {b : Nat} {val : BitVec 64} {buf : Buffer} {behind : CStr}

theorem slt_zero_iff : val.slt 0 ↔ val.toInt < 0 := BitVec.slt_iff_toInt_lt

theorem natAbs_magnitude : (magnitude val).toInt.natAbs = val.toInt.natAbs := by
  unfold magnitude
  split_ifs
  · by_cases hmin : val = BitVec.intMin 64
    · rw [hmin]
      decide
    · rw [BitVec.toInt_neg_of_ne_intMin hmin, Int.natAbs_neg]
  · rfl

theorem magnitude_toInt (hmin : val ≠ BitVec.intMin 64) : (magnitude val).toInt = val.toInt.natAbs := by
  unfold magnitude
  split_ifs with hneg
  · rw [BitVec.toInt_neg_of_ne_intMin hmin]
    have hlt := slt_zero_iff.mp hneg
    omega
  · have hge := mt slt_zero_iff.mpr hneg
    omega

def sign (val : BitVec 64) : List Byte := if val.toInt < 0 then [ch '-'] else []

def written (around : Int → Byte) (base : Int) (val : BitVec 64) (buf : Buffer) : Nat × Buffer :=
  (writeDigits around base 63 (magnitude val).toInt buf).val

theorem written_index (hb : 1 < b) :
    (written around b val buf).1 = 63 - min (Nat.digits b val.toInt.natAbs).length 63 := by
  rw [written, writeDigits_index hb, natAbs_magnitude]

theorem itoa_of_neg (hneg : val.toInt < 0) :
    (itoa around val b buf).val = (.within (written around b val buf).1,
      Function.update (written around b val buf).2 (written around b val buf).1 (ch '-')) := by
  have hval : val ≠ 0 := by
    rintro rfl
    exact absurd hneg (lt_irrefl 0)
  have hslt : val.slt 0 = true := slt_zero_iff.mpr hneg
  rw [itoa, if_neg hval, hslt]
  rfl

theorem itoa_of_pos (hpos : 0 < val.toInt) :
    (itoa around val b buf).val =
      (.within ((written around b val buf).1 + 1), (written around b val buf).2) := by
  have hval : val ≠ 0 := by
    rintro rfl
    exact absurd hpos (lt_irrefl 0)
  have hslt : val.slt 0 = false := Bool.eq_false_iff.mpr (mt slt_zero_iff.mp (by omega))
  rw [itoa, if_neg hval, hslt]
  rfl

theorem itoa_uses (hb : 1 < b) : Uses (· < 64) (itoa around val b buf) := by
  unfold itoa
  split_ifs with hval
  · exact Uses.pure
  · refine Uses.bind (writeDigits_uses.mono fun k hk => by omega) ?_
    dsimp only
    split_ifs
    · refine Uses.bind (Uses.use ?_) Uses.pure
      rw [writeDigits_index hb]
      omega
    · exact Uses.pure

theorem itoa_start (hb : 1 < b) (hval : val.toInt ≠ 0) :
    (itoa around val b buf).val.1 =
      .within (64 - (sign val).length - min (Nat.digits b val.toInt.natAbs).length 63) := by
  have hdigits : 0 < (Nat.digits b val.toInt.natAbs).length :=
    List.length_pos_of_ne_nil (Nat.digits_ne_nil_iff_ne_zero.mpr (Int.natAbs_ne_zero.mpr hval))
  rcases lt_or_gt_of_ne hval with hneg | hpos
  · rw [itoa_of_neg hneg, written_index hb, sign, if_pos hneg, List.length_singleton]
  · rw [itoa_of_pos hpos, written_index hb, sign, if_neg (by omega), List.length_nil]
    refine congrArg Text.within ?_
    omega

theorem IsSigned.length_eq {x : List Byte} (hb : 1 < b) (hval : val.toInt ≠ 0)
    (h : IsSigned b val.toInt x) :
    x.length = (sign val).length + (Nat.digits b val.toInt.natAbs).length := by
  obtain ⟨ds, hds, rfl⟩ := h
  rw [List.length_append, List.length_map, hds.eq_numeral hb,
    length_numeral (Int.natAbs_ne_zero.mpr hval)]
  rfl

/-- A numeral leaves no room for a NUL, so only zero is formatted as it should be. -/
theorem itoa_formatted_iff {base : Int} (hbase : 2 ≤ base ∧ base ≤ 16) :
    Formatted around val base buf ↔ val = 0 := by
  obtain ⟨b, rfl⟩ := Int.eq_ofNat_of_zero_le (by omega : 0 ≤ base)
  have hb : 1 < b := by omega
  constructor
  · rintro ⟨-, x, hholds, hx⟩
    by_contra hne
    have hval : val.toInt ≠ 0 := fun h => hne (BitVec.eq_of_toInt_eq h)
    rw [Int.toNat_natCast] at hx
    rw [itoa_start hb hval] at hholds
    have hfits := hholds.1
    rw [hx.length_eq hb hval] at hfits
    have hdigits : 0 < (Nat.digits b val.toInt.natAbs).length :=
      List.length_pos_of_ne_nil (Nat.digits_ne_nil_iff_ne_zero.mpr (Int.natAbs_ne_zero.mpr hval))
    omega
  · rintro rfl
    refine ⟨itoa_uses hb, [ch '0'], rfl, [0], ?_, rfl⟩
    rw [Int.toNat_natCast]
    exact isNumeral_numeral hb

theorem itoa_formatted_zero : Formatted (fun _ => 0) 0 10 fun _ => 0 :=
  (itoa_formatted_iff (by decide)).mpr rfl

/-- The only digit of 1 takes the last byte. -/
theorem itoa_not_formatted_one : ¬Formatted (fun _ => 0) 1 10 fun _ => 0 := by
  rintro ⟨-, x, hholds, ds, hds, rfl⟩
  have hfits : 63 + ([] ++ ds.map hexDigit).length < 64 := hholds.1
  rw [List.nil_append, List.length_map] at hfits
  exact hds.nonempty (List.length_eq_zero_iff.mp (by omega))

theorem isStr_within {x : List Byte} (hnul : 0 ∉ x) (hlen : x.length ≤ 64)
    (hx : ∀ k < x.length, buf (64 - x.length + k) = x.getD k 0) (hend : behind 0 = 0) :
    IsStr ((Text.within (64 - x.length)).chars buf behind) x := by
  refine ⟨hnul, fun k hk => ?_⟩
  show (if 64 - x.length + k < 64 then _ else _) = _
  rcases hk.lt_or_eq with hk | rfl
  · rw [if_pos (by omega), hx k hk]
  · rw [if_neg (by omega), Nat.sub_add_cancel hlen, Nat.sub_self, hend, List.getD_eq_getElem?_getD,
      List.getElem?_eq_none (le_refl _), Option.getD_none]

theorem length_digits_le (hb : 1 < b) (hmin : val ≠ BitVec.intMin 64) :
    (Nat.digits b val.toInt.natAbs).length ≤ 63 := by
  rw [Nat.digits_length_le_iff hb]
  have hne : val.toInt ≠ -2 ^ 63 := fun h => hmin (BitVec.eq_of_toInt_eq h)
  have hlow : -2 ^ 63 ≤ val.toInt := BitVec.le_toInt val
  have hhigh : val.toInt < 2 ^ 63 := BitVec.toInt_lt
  calc val.toInt.natAbs < 2 ^ 63 := by omega
    _ ≤ b ^ 63 := Nat.pow_le_pow_left hb 63

theorem itoa_text (hb : 1 < b) (hle : b ≤ 16) (hval : val.toInt ≠ 0) (hmin : val ≠ BitVec.intMin 64)
    (hend : behind 0 = 0) :
    IsStr ((itoa around val b buf).val.1.chars (itoa around val b buf).val.2 behind)
      (sign val ++ (numeral b val.toInt.natAbs).map hexDigit) := by
  have hn : val.toInt.natAbs ≠ 0 := Int.natAbs_ne_zero.mpr hval
  have hlen := length_digits_le hb hmin
  have hnul := zero_notMem_digits (n := val.toInt.natAbs) hb hle
  have hdigit : ∀ j < (Nat.digits b val.toInt.natAbs).length,
      (written around b val buf).2 (63 - (Nat.digits b val.toInt.natAbs).length + 1 + j) =
        ((numeral b val.toInt.natAbs).map hexDigit).getD j 0 := by
    intro j hj
    rw [written, magnitude_toInt hmin]
    exact writeDigits_numeral hb hle hlen hj
  have hlength : ((numeral b val.toInt.natAbs).map hexDigit).length =
      (Nat.digits b val.toInt.natAbs).length := by
    rw [List.length_map, length_numeral hn]
  have hindex : (written around b val buf).1 = 63 - (Nat.digits b val.toInt.natAbs).length := by
    rw [written_index hb, Nat.min_eq_left hlen]
  rcases lt_or_gt_of_ne hval with hneg | hpos
  · have hstart : (written around b val buf).1 = 64 -
        (ch '-' :: (numeral b val.toInt.natAbs).map hexDigit).length := by
      rw [hindex, List.length_cons, hlength]
      omega
    rw [itoa_of_neg hneg, sign, if_pos hneg, List.singleton_append, hstart]
    have hminus : 0 ∉ ch '-' :: (numeral b val.toInt.natAbs).map hexDigit :=
      List.not_mem_cons_of_ne_of_not_mem (by decide) hnul
    refine isStr_within hminus (by rw [List.length_cons]; omega) (fun k hk => ?_) hend
    rw [← hstart, hindex]
    dsimp only
    cases k with
    | zero => rw [Nat.add_zero, Function.update_self, List.getD_cons_zero]
    | succ k =>
      rw [List.length_cons, hlength] at hk
      rw [Function.update_of_ne (by omega), Nat.add_comm k 1, ← Nat.add_assoc, hdigit k (by omega),
        Nat.add_comm 1 k, List.getD_cons_succ]
  · have hstart : (written around b val buf).1 + 1 = 64 -
        ((numeral b val.toInt.natAbs).map hexDigit).length := by
      rw [hindex, hlength]
      omega
    rw [itoa_of_pos hpos, sign, if_neg (by omega), List.nil_append, hstart]
    refine isStr_within hnul (by omega) (fun k hk => ?_) hend
    rw [← hstart, hindex, hdigit k (by omega)]

end

-- ---------------------------------------------------------------------------
-- `utoa`
-- ---------------------------------------------------------------------------

section
variable {around : Int → Byte} {b : Nat} {base : Int} {val : BitVec 64} {buf : Buffer}
  {behind : CStr} {x : List Byte}

theorem utoa_of_ne_zero (hval : val ≠ 0) :
    (utoa around val base buf).val =
      (.within ((writeDigits around base 62 val.toNat buf).val.1 + 1),
        (writeDigits around base 62 val.toNat buf).val.2) := by
  rw [utoa, if_neg hval]
  rfl

theorem utoa_last : (utoa around val base buf).val.2 63 = buf 63 := by
  by_cases hval : val = 0
  · rw [hval]
    rfl
  · rw [utoa_of_ne_zero hval]
    exact writeDigits_above (by decide)

theorem utoa_holds (hb : 1 < b) (hle : b ≤ 16) (hlen : val.toNat < b ^ 62) (hbuf : buf 63 = 0) :
    (utoa around val b buf).val.1.Holds (utoa around val b buf).val.2
      ((numeral b val.toNat).map hexDigit) := by
  by_cases hval : val = 0
  · rw [hval]
    exact congrArg (List.map hexDigit) numeral_zero.symm
  · have hn : val.toNat ≠ 0 := fun h => hval (BitVec.eq_of_toNat_eq h)
    have hdigits : (Nat.digits b val.toNat).length ≤ 62 := (Nat.digits_length_le_iff hb _).mpr hlen
    have hlength : ((numeral b val.toNat).map hexDigit).length = (Nat.digits b val.toNat).length := by
      rw [List.length_map, length_numeral hn]
    rw [utoa_of_ne_zero hval, writeDigits_index hb, Int.natAbs_natCast, Nat.min_eq_left hdigits]
    refine ⟨by omega, zero_notMem_digits hb hle, fun k hk => ?_⟩
    rw [CStr.skip]
    rcases hk.lt_or_eq with hk | rfl
    · exact writeDigits_numeral hb hle hdigits (by omega)
    · rw [hlength, writeDigits_above (by omega), List.getD_eq_getElem?_getD,
        List.getElem?_eq_none (by omega), Option.getD_none]
      exact (congrArg buf (by omega)).trans hbuf

theorem Text.Holds.isStr {text : Text} (h : text.Holds buf x) (hnul : 0 ∉ x) :
    IsStr (text.chars buf behind) x := by
  cases text with
  | literal y =>
    obtain rfl : y = x := h
    exact isStr_cstr hnul
  | within start =>
    obtain ⟨hlen, hstr⟩ := h
    refine ⟨hnul, fun k hk => ?_⟩
    show (if start + k < 64 then _ else _) = _
    rw [if_pos (by omega)]
    exact hstr.chars k hk

end

end Screen

end LimineOS
