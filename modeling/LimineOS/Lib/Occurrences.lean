import Mathlib.Data.List.Infix

/-!
# Occurrences of a pattern in a list

`first` is the position of the first occurrence, and `deleteAll` deletes the
occurrences that a scan from the left meets which goes on after each of them.
-/

namespace Occurrences

section
variable {α : Type} [DecidableEq α] {pat s : List α} {k : Nat}

/-- The first position with the pattern, which is not the end of the list. -/
def first (pat : List α) : List α → Option Nat
  | [] => none
  | c :: s => if pat <+: c :: s then some 0 else (first pat s).map (· + 1)

def deleteAll (pat : List α) : List α → List α
  | [] => []
  | c :: s =>
    if _ : pat ≠ [] ∧ pat <+: c :: s then deleteAll pat ((c :: s).drop pat.length)
      else c :: deleteAll pat s
termination_by s => s.length
decreasing_by
  · rename_i h
    have hpos := List.length_pos_of_ne_nil h.1
    simp only [List.length_drop, List.length_cons]
    omega
  · simp

theorem first_eq_some_iff : first pat s = some k ↔
      k < s.length ∧ pat <+: s.drop k ∧ ∀ j < k, ¬pat <+: s.drop j := by
  induction s generalizing k with
  | nil => simp [first]
  | cons c s ih =>
    by_cases hpat : pat <+: c :: s
    · rw [first, if_pos hpat, Option.some_inj]
      constructor
      · rintro rfl
        exact ⟨Nat.succ_pos _, hpat, fun j hj => absurd hj (Nat.not_lt_zero j)⟩
      · rintro ⟨-, -, hbefore⟩
        by_contra hk
        exact hbefore 0 (Nat.pos_of_ne_zero (Ne.symm hk)) hpat
    · rw [first, if_neg hpat, Option.map_eq_some_iff]
      cases k with
      | zero => simp [hpat]
      | succ k =>
        simp only [Nat.add_right_cancel_iff, exists_eq_right, ih, List.length_cons, List.drop_succ_cons,
          Nat.add_lt_add_iff_right]
        refine and_congr_right fun _ => and_congr_right fun _ =>
          ⟨fun h j hj => ?_, fun h j hj => h (j + 1) (by omega)⟩
        cases j with
        | zero => exact hpat
        | succ j => exact h j (by omega)

theorem deleteAll_nil : deleteAll [] s = s := by
  induction s with
  | nil => rw [deleteAll]
  | cons c s ih => simp [deleteAll, ih]

theorem deleteAll_of_none (h : first pat s = none) : deleteAll pat s = s := by
  induction s with
  | nil => rw [deleteAll]
  | cons c s ih =>
    by_cases hpat : pat <+: c :: s
    · simp [first, hpat] at h
    · rw [first, if_neg hpat, Option.map_eq_none_iff] at h
      simp [deleteAll, hpat, ih h]

theorem deleteAll_of_some (hpat : pat ≠ []) (h : first pat s = some k) :
    deleteAll pat s = s.take k ++ deleteAll pat (s.drop (k + pat.length)) := by
  induction s generalizing k with
  | nil => simp [first] at h
  | cons c s ih =>
    by_cases hprefix : pat <+: c :: s
    · rw [first, if_pos hprefix] at h
      obtain rfl := Option.some.inj h
      rw [deleteAll, dif_pos ⟨hpat, hprefix⟩, List.take_zero, List.nil_append, Nat.zero_add]
    · rw [first, if_neg hprefix, Option.map_eq_some_iff] at h
      obtain ⟨k, hk, rfl⟩ := h
      rw [deleteAll, dif_neg (fun hand => hprefix hand.2), ih hk, List.take_succ_cons,
        List.cons_append, Nat.add_right_comm, List.drop_succ_cons]

end

end Occurrences
