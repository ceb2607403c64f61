import Mathlib.Data.Nat.Digits.Lemmas

/-!
# Numerals

Digits with the most significant first. A number has one numeral without leading
zeros in each base from 2 on (`isNumeral_numeral`, `IsNumeral.eq_numeral`).
-/

namespace Numerals

def eval (b : Nat) (ds : List Nat) : Nat := Nat.ofDigits b ds.reverse

structure IsNumeral (b n : Nat) (ds : List Nat) : Prop where
  digits : ∀ d ∈ ds, d < b
  nonempty : ds ≠ []
  leading : ds.head? = some 0 → ds = [0]
  value : eval b ds = n

def numeral (b n : Nat) : List Nat := if n = 0 then [0] else (Nat.digits b n).reverse

section
variable {b n m : Nat} {ds : List Nat}

theorem numeral_zero : numeral b 0 = [0] := if_pos rfl

theorem numeral_of_ne_zero (hn : n ≠ 0) : numeral b n = (Nat.digits b n).reverse := if_neg hn

theorem length_numeral (hn : n ≠ 0) : (numeral b n).length = (Nat.digits b n).length := by
  rw [numeral_of_ne_zero hn, List.length_reverse]

theorem lt_of_mem_numeral {d : Nat} (hb : 1 < b) (hd : d ∈ numeral b n) : d < b := by
  by_cases hn : n = 0
  · rw [hn, numeral_zero, List.mem_singleton] at hd
    omega
  · rw [numeral_of_ne_zero hn, List.mem_reverse] at hd
    exact Nat.digits_lt_base hb hd

theorem eval_numeral : eval b (numeral b n) = n := by
  by_cases hn : n = 0
  · simp [hn, numeral, eval]
  · rw [eval, numeral_of_ne_zero hn, List.reverse_reverse, Nat.ofDigits_digits]

theorem head?_numeral (hn : n ≠ 0) : (numeral b n).head? ≠ some 0 := by
  have hne : Nat.digits b n ≠ [] := Nat.digits_ne_nil_iff_ne_zero.mpr hn
  rw [numeral_of_ne_zero hn, List.head?_reverse, List.getLast?_eq_getLast_of_ne_nil hne]
  exact fun h => Nat.getLast_digit_ne_zero b hn (Option.some.inj h)

theorem numeral_ne_nil : numeral b n ≠ [] := by
  by_cases hn : n = 0
  · simp [hn, numeral]
  · rw [numeral_of_ne_zero hn]
    exact fun h => Nat.digits_ne_nil_iff_ne_zero.mpr hn (List.reverse_eq_nil_iff.mp h)

theorem isNumeral_numeral (hb : 1 < b) : IsNumeral b n (numeral b n) where
  digits := fun _ hd => lt_of_mem_numeral hb hd
  nonempty := numeral_ne_nil
  leading := fun h => by
    by_cases hn : n = 0
    · rw [hn, numeral_zero]
    · exact absurd h (head?_numeral hn)
  value := eval_numeral

theorem IsNumeral.eq_numeral (h : IsNumeral b n ds) (hb : 1 < b) : ds = numeral b n := by
  by_cases hzero : ds = [0]
  · have hn : n = 0 := by simpa [eval, hzero] using h.value.symm
    rw [hzero, hn, numeral_zero]
  · have hreverse : ds.reverse ≠ [] := fun hnil => h.nonempty (List.reverse_eq_nil_iff.mp hnil)
    have hlast : ds.reverse.getLast hreverse ≠ 0 := by
      intro hd
      refine hzero (h.leading ?_)
      rw [← List.getLast?_reverse, List.getLast?_eq_getLast_of_ne_nil hreverse, hd]
    have hdigits : Nat.digits b n = ds.reverse := by
      rw [← h.value, eval,
        Nat.digits_ofDigits b hb _ (fun d hd => h.digits d (List.mem_reverse.mp hd)) fun _ => hlast]
    have hn : n ≠ 0 := Nat.digits_ne_nil_iff_ne_zero.mp (hdigits ▸ hreverse)
    rw [numeral_of_ne_zero hn, hdigits, List.reverse_reverse]

end

end Numerals
