import LimineOS.Lib.Fuel
import LimineOS.Util

/-!
# `memmove`

Upwards, for a source from the destination on, the bytes are copied as they were.
Downwards, the loop's header adds the count to the source in each round, where it
should do so once: the loop ends with a null pointer only, and so it does not end
unless it begins at address 0 (`moves_iff`).
-/

namespace LimineOS

open ByteMemory Fueled

structure Store where
  ram : Mem
  written : List Nat := []

def Store.set (m : Store) (a : Nat) (c : Byte) : Store :=
  { ram := Function.update m.ram a c, written := m.written ++ [a] }

/-- Pointers are naturals: there is no object around the ends of the address space. -/
structure Move where
  m : Store
  pd : Nat
  ps : Nat
  n : BitVec 32

def moveUp (s : Move) : Move ⊕ Store :=
  if s.n = 0 then .inr s.m
  else .inl { m := s.m.set s.pd (s.m.ram s.ps), pd := s.pd + 1, ps := s.ps + 1, n := s.n - 1 }

def moveDown (s : Move) : Move ⊕ Store :=
  let ps := s.ps + s.n.toNat
  if ps = 0 then .inr s.m
  else .inl { m := s.m.set (s.pd - 1) (s.m.ram (ps - 1)), pd := s.pd - 1, ps := ps - 1, n := s.n - 1 }

def memmove (m : Store) (dest src : Nat) (n : BitVec 32) : Fueled Store :=
  if src < dest then iterate moveDown { m, pd := dest + n.toNat, ps := src, n }
  else iterate moveUp { m, pd := dest, ps := src, n }

/-- The destination has what the source had, and nothing else has been written. -/
structure Moved (m : Store) (dest src n : Nat) (m' : Store) : Prop where
  copied : ∀ i < n, m'.ram (dest + i) = m.ram (src + i)
  frame : Set.EqOn m'.ram m.ram (span dest n)ᶜ
  writes : ∀ a ∈ m'.written, a ∈ m.written ∨ a ∈ span dest n

def Moves (m : Store) (dest src : Nat) (n : BitVec 32) : Prop :=
  Ends (memmove m dest src n) (Moved m dest src n.toNat)

section
variable {m : Store} {ram : Mem} {dest src len pd ps : Nat} {n : BitVec 32}

theorem toNat_sub_one (n : BitVec 32) : (n - 1).toNat = if n = 0 then 2 ^ 32 - 1 else n.toNat - 1 := by
  split_ifs with h
  · rw [h]
    rfl
  · have hne : n.toNat ≠ 0 := fun hzero => h (BitVec.eq_of_toNat_eq hzero)
    have hlt := n.isLt
    rw [BitVec.toNat_sub]
    show (2 ^ 32 - 1 + n.toNat) % 2 ^ 32 = _
    omega

-- ---------------------------------------------------------------------------
-- Upwards
-- ---------------------------------------------------------------------------

theorem moveUp_ends (m : Store) (pd ps : Nat) (n : BitVec 32) :
    Ends (iterate moveUp { m, pd, ps, n }) fun m' =>
      m' = { ram := memcpy m.ram pd ps n.toNat, written := m.written ++ List.range' pd n.toNat } := by
  induction hlen : n.toNat generalizing m pd ps n with
  | zero =>
    refine ends_iterate_inr (if_pos (BitVec.eq_of_toNat_eq hlen)) ?_
    simp [memcpy]
  | succ len ih =>
    have hne : n ≠ 0 := by
      rintro rfl
      exact absurd hlen (Nat.succ_ne_zero len).symm
    have hpred : (n - 1).toNat = len := by rw [toNat_sub_one, if_neg hne, hlen, Nat.add_sub_cancel]
    refine ends_iterate_inl (if_neg hne) ((ih _ _ _ _ hpred).mono ?_)
    rintro _ rfl
    simp [Store.set, memcpy, List.range'_succ]

theorem moves_of_le (hle : dest ≤ src) : Moves m dest src n := by
  rw [Moves, memmove, if_neg (Nat.not_lt.mpr hle)]
  refine (moveUp_ends m dest src n).mono ?_
  rintro _ rfl
  refine ⟨fun i hi => ?_, fun x hx => ?_, fun a ha => ?_⟩
  · refine (memcpy_apply m.ram (.inl hle) _).trans ?_
    rw [if_pos (by omega), Nat.add_sub_cancel_left]
  · exact (memcpy_apply m.ram (.inl hle) _).trans (if_neg fun hin => hx ⟨hin.1, hin.2⟩)
  · simpa [mem_span] using ha

-- ---------------------------------------------------------------------------
-- Downwards
-- ---------------------------------------------------------------------------

theorem moveDown_safe (h : 1 ≤ ps ∨ 2 ≤ n.toNat) :
    Safe (iterate moveDown { m, pd, ps, n }) fun _ => False := by
  refine safe_iterate (I := fun s => 1 ≤ s.ps ∨ 2 ≤ s.n.toNat) (fun s hs => ?_) h
  rw [moveDown, if_neg (by omega), Sum.elim_inl, toNat_sub_one]
  split_ifs with hn
  · exact .inr (by omega)
  · have hpos : s.n.toNat ≠ 0 := fun hzero => hn (BitVec.eq_of_toNat_eq hzero)
    left
    show 1 ≤ s.ps + s.n.toNat - 1
    omega

theorem moves_null (hdest : 0 < dest) (hn : n.toNat ≤ 1) : Moves m dest 0 n := by
  rw [Moves, memmove, if_pos hdest]
  rcases Nat.le_one_iff_eq_zero_or_eq_one.mp hn with hzero | hone
  · obtain rfl : n = 0 := BitVec.eq_of_toNat_eq hzero
    exact ends_iterate_inr rfl
      ⟨fun i hi => absurd hi (Nat.not_lt_zero i), fun _ _ => rfl, fun _ ha => .inl ha⟩
  · obtain rfl : n = 1 := BitVec.eq_of_toNat_eq hone
    have hfirst : moveDown { m, pd := dest + 1, ps := 0, n := 1 } =
        .inl { m := m.set dest (m.ram 0), pd := dest, ps := 0, n := 0 } := by
      simp [moveDown]
    refine ends_iterate_inl hfirst
      (ends_iterate_inr rfl ⟨fun i hi => ?_, fun x hx => ?_, fun a ha => ?_⟩)
    · obtain rfl : i = 0 := Nat.lt_one_iff.mp hi
      exact Function.update_self ..
    · refine Function.update_of_ne ?_ ..
      rintro rfl
      exact hx ⟨le_refl _, Nat.lt_succ_self _⟩
    · rcases List.mem_append.mp ha with ha | ha
      · exact .inl ha
      · obtain rfl := List.mem_singleton.mp ha
        exact .inr ⟨le_refl _, Nat.lt_succ_self _⟩

theorem moves_iff : Moves m dest src n ↔ dest ≤ src ∨ src = 0 ∧ n.toNat ≤ 1 := by
  constructor
  · intro hmoves
    by_contra hcond
    rw [Moves, memmove, if_pos (by omega)] at hmoves
    exact (moveDown_safe (by omega)).not_ends hmoves
  · rintro (hle | ⟨rfl, hn⟩)
    · exact moves_of_le hle
    · rcases Nat.eq_zero_or_pos dest with rfl | hdest
      · exact moves_of_le (le_refl 0)
      · exact moves_null hdest hn

theorem not_moves : ¬Moves { ram := fun _ => 0 } 101 100 1 := by
  intro hmoves
  rw [Moves, memmove, if_pos (by decide)] at hmoves
  exact (moveDown_safe (by decide)).not_ends hmoves

end

end LimineOS
