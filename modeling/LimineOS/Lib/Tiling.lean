import Mathlib.Algebra.Ring.Nat
import Mathlib.Order.CompletePartialOrder
import Mathlib.Data.List.Pairwise
import Mathlib.Data.List.Nodup
import Mathlib.Order.Interval.Set.Basic

/-!
# Blocks that tile an interval

`Tiles len least a z l` says that the blocks of `l`, each known by where it
starts, lie one behind the other from `a` to `z`: a block `b` covers `len b`
cells, at least `least` of them. Blocks of a tiling never overlap. A block may be
merged with the one behind it, or split in two.
-/

namespace Tiling

def Tiles (len : Nat → Nat) (least : Nat) : Nat → Nat → List Nat → Prop
  | a, z, [] => a = z
  | a, z, b :: l => b = a ∧ least ≤ len b ∧ Tiles len least (a + len b) z l

section
variable {len len' : Nat → Nat} {least a z b c t x : Nat} {l A B : List Nat}

theorem tiles_append : Tiles len least a z (A ++ B) ↔
      ∃ m, Tiles len least a m A ∧ Tiles len least m z B := by
  induction A generalizing a with
  | nil =>
    constructor
    · intro h
      exact ⟨a, rfl, h⟩
    · rintro ⟨m, rfl, h⟩
      exact h
  | cons b A ih =>
    constructor
    · rintro ⟨rfl, hb, h⟩
      obtain ⟨m, hA, hB⟩ := ih.mp h
      exact ⟨m, ⟨rfl, hb, hA⟩, hB⟩
    · rintro ⟨m, ⟨rfl, hb, hA⟩, hB⟩
      exact ⟨rfl, hb, ih.mpr ⟨m, hA, hB⟩⟩

theorem Tiles.congr (h : Tiles len least a z l) (hsame : ∀ b ∈ l, len' b = len b) :
    Tiles len' least a z l := by
  induction l generalizing a with
  | nil => exact h
  | cons b l ih =>
    obtain ⟨rfl, hb, h⟩ := h
    have hlen := hsame b List.mem_cons_self
    refine ⟨rfl, hlen ▸ hb, hlen ▸ ih h fun c hc => hsame c (List.mem_cons_of_mem b hc)⟩

theorem Tiles.le (h : Tiles len least a z l) : a ≤ z := by
  induction l generalizing a with
  | nil => exact Nat.le_of_eq h
  | cons b l ih => exact Nat.le_trans (Nat.le_add_right a (len b)) (ih h.2.2)

theorem Tiles.least_le (h : Tiles len least a z l) (hb : b ∈ l) : least ≤ len b := by
  obtain ⟨A, B, rfl⟩ := List.append_of_mem hb
  obtain ⟨m, -, -, hleast, -⟩ := tiles_append.mp h
  exact hleast

theorem Tiles.inside (h : Tiles len least a z l) (hb : b ∈ l) : a ≤ b ∧ b + len b ≤ z := by
  obtain ⟨A, B, rfl⟩ := List.append_of_mem hb
  obtain ⟨m, hA, rfl, -, hB⟩ := tiles_append.mp h
  exact ⟨hA.le, hB.le⟩

theorem Tiles.pairwise (h : Tiles len least a z l) : l.Pairwise fun b c => b + len b ≤ c := by
  induction l generalizing a with
  | nil => exact .nil
  | cons b l ih =>
    obtain ⟨rfl, -, h⟩ := h
    exact .cons (fun c hc => (h.inside hc).1) (ih h)

theorem Tiles.nodup (h : Tiles len least a z l) (hleast : 0 < least) : l.Nodup := by
  refine (List.Pairwise.and_mem.mp h.pairwise).imp ?_
  rintro b c ⟨hb, -, hbc⟩ rfl
  have := h.least_le hb
  omega

theorem Tiles.next (h : Tiles len least a z (A ++ b :: c :: B)) : b + len b = c := by
  obtain ⟨m, -, rfl, -, hc, -⟩ := tiles_append.mp h
  exact hc.symm

theorem Tiles.apart (h : Tiles len least a z l) (hb : b ∈ l) (hc : c ∈ l) (hne : b ≠ c) :
    b + len b ≤ c ∨ c + len c ≤ b := by
  obtain ⟨A, B, rfl⟩ := List.append_of_mem hb
  have hpair := h.pairwise
  rw [List.pairwise_append, List.pairwise_cons] at hpair
  obtain ⟨-, ⟨hB, -⟩, hA⟩ := hpair
  rcases List.mem_append.mp hc with hc | hc
  · exact .inr (hA c hc b List.mem_cons_self)
  · exact .inl (hB c ((List.mem_cons.mp hc).resolve_left hne.symm))

theorem Tiles.whole (h : Tiles len least a z (b :: l)) (hz : b + len b = z) (hleast : 0 < least) :
    l = [] := by
  obtain ⟨rfl, -, h⟩ := h
  cases l with
  | nil => rfl
  | cons c l =>
    have := h.2.2.le
    have := h.2.1
    omega

theorem Tiles.merge (h : Tiles len least a z (A ++ b :: c :: B)) (hb : len' b = len b + len c)
    (hsame : ∀ d ∈ A ++ B, len' d = len d) : Tiles len' least a z (A ++ b :: B) := by
  obtain ⟨m, hA, rfl, hleast, rfl, -, hB⟩ := tiles_append.mp h
  refine tiles_append.mpr
    ⟨b, hA.congr fun d hd => hsame d (List.mem_append_left B hd), rfl, by omega, ?_⟩
  rw [hb, ← Nat.add_assoc]
  exact hB.congr fun d hd => hsame d (List.mem_append_right A hd)

theorem Tiles.split (h : Tiles len least a z (A ++ b :: B)) (hb : len' b + len' t = len b)
    (ht : t = b + len' b)
    (hleast : least ≤ len' b) (hleast' : least ≤ len' t) (hsame : ∀ d ∈ A ++ B, len' d = len d) :
    Tiles len' least a z (A ++ b :: t :: B) := by
  obtain ⟨m, hA, rfl, -, hB⟩ := tiles_append.mp h
  refine tiles_append.mpr
    ⟨b, hA.congr fun d hd => hsame d (List.mem_append_left B hd), rfl, hleast, ht, hleast', ?_⟩
  rw [Nat.add_assoc, hb]
  exact hB.congr fun d hd => hsame d (List.mem_append_right A hd)

end

end Tiling
