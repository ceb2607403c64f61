import Mathlib.Data.List.Basic
import Mathlib.Data.Nat.Basic

/-!
# The first element that meets a test

A test that takes more elements than it should is still harmless for a search
where each of these is, or comes after, one that it is right to take.
-/

namespace FirstMatch

section
variable {α : Type} {P Q : α → Prop} {a : α} {l : List α}

/-- Whatever `P` takes is or follows something that `Q` takes. -/
def Covers (Q P : α → Prop) (l : List α) : Prop :=
  ∀ (j : Nat) (a : α), l[j]? = some a → P a → ∃ i ≤ j, ∃ b, l[i]? = some b ∧ Q b

theorem covers_nil : Covers Q P [] := fun j a hj => absurd hj (by simp)

theorem covers_cons_self (hQ : Q a) : Covers Q P (a :: l) :=
  fun j _ _ _ => ⟨0, Nat.zero_le j, a, rfl, hQ⟩

theorem not_covers_cons (hP : P a) (hQ : ¬Q a) : ¬Covers Q P (a :: l) := by
  intro hall
  obtain ⟨i, hi, b, hb, hQb⟩ := hall 0 a rfl hP
  obtain rfl := Nat.le_zero.mp hi
  obtain rfl := Option.some.inj hb
  exact hQ hQb

theorem covers_cons_iff (hP : ¬P a) (hQ : ¬Q a) : Covers Q P (a :: l) ↔ Covers Q P l := by
  constructor
  · intro hall j b hj hPb
    obtain ⟨i, hi, c, hc, hQc⟩ := hall (j + 1) b hj hPb
    cases i with
    | zero => exact absurd (Option.some.inj hc ▸ hQc) hQ
    | succ i => exact ⟨i, Nat.le_of_succ_le_succ hi, c, hc, hQc⟩
  · intro hall j b hj hPb
    cases j with
    | zero => exact absurd (Option.some.inj hj ▸ hPb) hP
    | succ j =>
      obtain ⟨i, hi, c, hc, hQc⟩ := hall j b hj hPb
      exact ⟨i + 1, Nat.succ_le_succ hi, c, hc, hQc⟩

variable [DecidablePred P] [DecidablePred Q]

theorem findIdx?_eq_iff (hQP : ∀ a, Q a → P a) (l : List α) :
    l.findIdx? (fun a => P a) = l.findIdx? (fun a => Q a) ↔ Covers Q P l := by
  induction l with
  | nil => exact iff_of_true rfl covers_nil
  | cons a l ih =>
    rw [List.findIdx?_cons, List.findIdx?_cons]
    by_cases hQ : Q a
    · rw [if_pos (decide_eq_true (hQP a hQ)), if_pos (decide_eq_true hQ)]
      exact iff_of_true rfl (covers_cons_self hQ)
    · have hQ' : ¬decide (Q a) = true := by simpa using hQ
      rw [if_neg hQ']
      by_cases hP : P a
      · rw [if_pos (decide_eq_true hP)]
        refine iff_of_false (fun heq => ?_) (not_covers_cons hP hQ)
        obtain ⟨i, -, hi⟩ := Option.map_eq_some_iff.mp heq.symm
        exact absurd hi (Nat.succ_ne_zero i)
      · have hP' : ¬decide (P a) = true := by simpa using hP
        rw [if_neg hP', (Option.map_injective Nat.succ_injective).eq_iff, ih, covers_cons_iff hP hQ]

theorem find?_eq_iff (hQP : ∀ a, Q a → P a) (l : List α) :
    l.find? (fun a => P a) = l.find? (fun a => Q a) ↔ Covers Q P l := by
  induction l with
  | nil => exact iff_of_true rfl covers_nil
  | cons a l ih =>
    rw [List.find?_cons, List.find?_cons]
    by_cases hQ : Q a
    · rw [decide_eq_true (hQP a hQ), decide_eq_true hQ]
      exact iff_of_true rfl (covers_cons_self hQ)
    · by_cases hP : P a
      · rw [decide_eq_true hP, decide_eq_false hQ]
        refine iff_of_false (fun heq => hQ ?_) (not_covers_cons hP hQ)
        have hsome : l.find? (fun a => Q a) = some a := heq.symm
        simpa using List.find?_some hsome
      · rw [decide_eq_false hP, decide_eq_false hQ, covers_cons_iff hP hQ]
        exact ih

end

end FirstMatch
