import LimineOS.Lib.ByteMemory
import Mathlib.Data.List.Infix

/-!
# Byte strings in memory

`Holds m a bs` says that the bytes `bs` are at `a`. A string made of parts is
held when each part is at its own offset, and records of one width are at the
multiples of that width, so that what a writer puts one after the other a
reader finds by its offset.
-/

namespace ByteMemory

def Holds (m : Mem) (a : Nat) (bs : List Byte) : Prop := ∀ i b, bs[i]? = some b → m (a + i) = b

def bytesLE : Nat → Nat → List Byte
  | 0, _ => []
  | n + 1, v => BitVec.ofNat 8 v :: bytesLE n (v / 256)

def loadBytes (m : Mem) (a n : Nat) : List Byte := (List.range n).map fun i => m (a + i)

variable {m m' : Mem} {a n v w i : Nat} {xs ys : List Byte} {b : Byte}

@[simp] theorem length_bytesLE : (bytesLE n v).length = n := by
  induction n generalizing v with
  | zero => rfl
  | succ n ih => rw [bytesLE, List.length_cons, ih]

@[simp] theorem holds_nil : Holds m a [] := by
  intro i b h
  exact absurd h (by simp)

theorem holds_cons : Holds m a (b :: xs) ↔ m a = b ∧ Holds m (a + 1) xs := by
  constructor
  · intro h
    refine ⟨h 0 b rfl, fun i c hc => ?_⟩
    rw [Nat.add_assoc, Nat.add_comm 1]
    exact h (i + 1) c hc
  · rintro ⟨h0, h⟩ i c hc
    cases i with
    | zero => exact h0.trans (Option.some.inj hc)
    | succ i =>
      rw [← Nat.add_assoc, Nat.add_right_comm]
      exact h i c hc

theorem holds_append : Holds m a (xs ++ ys) ↔ Holds m a xs ∧ Holds m (a + xs.length) ys := by
  induction xs generalizing a with
  | nil => simp
  | cons b xs ih =>
    rw [List.cons_append, holds_cons, holds_cons, ih, and_assoc, List.length_cons, Nat.add_assoc,
      Nat.add_comm 1]

theorem length_records {α : Type} {f : α → List Byte} {rs : List α} (hw : ∀ r ∈ rs, (f r).length = w) :
    (rs.flatMap f).length = rs.length * w := by
  induction rs with
  | nil => simp
  | cons r rs ih =>
    rw [List.flatMap_cons, List.length_append, hw r List.mem_cons_self,
      ih fun r hr => hw r (List.mem_cons_of_mem _ hr), List.length_cons, Nat.succ_mul, Nat.add_comm]

theorem Holds.record {α : Type} {f : α → List Byte} {rs : List α} {r : α} (h : Holds m a (rs.flatMap f))
    (hw : ∀ r ∈ rs, (f r).length = w) (hi : rs[i]? = some r) : Holds m (a + i * w) (f r) := by
  induction rs generalizing a i with
  | nil => exact absurd hi (by simp)
  | cons r' rs ih =>
    rw [List.flatMap_cons, holds_append, hw r' List.mem_cons_self] at h
    cases i with
    | zero =>
      obtain rfl := Option.some.inj hi
      rw [Nat.zero_mul]
      exact h.1
    | succ i =>
      have hrec := ih h.2 (fun r hr => hw r (List.mem_cons_of_mem _ hr)) hi
      rwa [Nat.add_assoc, Nat.add_comm w, ← Nat.succ_mul] at hrec

theorem Holds.readLE (h : Holds m a (bytesLE n v)) : readLE m a n = v % 256 ^ n := by
  induction n generalizing a v with
  | zero => simp [ByteMemory.readLE, Nat.mod_one]
  | succ n ih =>
    rw [bytesLE, holds_cons] at h
    rw [ByteMemory.readLE, h.1, ih h.2, BitVec.toNat_ofNat, Nat.pow_succ 256 n,
      Nat.mul_comm (256 ^ n), Nat.mod_mul]

theorem Holds.map_range (h : Holds m a xs) (hn : n ≤ xs.length) :
    ((List.range n).map fun i => m (a + i)) = xs.take n := by
  apply List.ext_getElem
  · rw [List.length_map, List.length_range, List.length_take, Nat.min_eq_left hn]
  · intro i h1 h2
    rw [List.length_map, List.length_range] at h1
    rw [List.getElem_map, List.getElem_range, List.getElem_take]
    exact h i _ (List.getElem?_eq_getElem _)

theorem Holds.congr (h : Holds m a xs) (hsame : ∀ x ∈ span a xs.length, m' x = m x) :
    Holds m' a xs := by
  intro i b hb
  obtain ⟨hi, -⟩ := List.getElem?_eq_some_iff.mp hb
  rw [hsame (a + i) ⟨by omega, by omega⟩]
  exact h i b hb

@[simp] theorem length_loadBytes : (loadBytes m a n).length = n := by
  rw [loadBytes, List.length_map, List.length_range]

theorem holds_loadBytes : Holds m a (loadBytes m a n) := by
  intro i b hb
  rw [loadBytes, List.getElem?_map, Option.map_eq_some_iff] at hb
  obtain ⟨j, hj, rfl⟩ := hb
  obtain ⟨hi, rfl⟩ := List.getElem?_eq_some_iff.mp hj
  rw [List.getElem_range]

end ByteMemory
