import Mathlib.Data.Set.Lattice
import Mathlib.Order.CompletePartialOrder
import Mathlib.Data.List.Perm.Basic
import Mathlib.Algebra.BigOperators.Group.List.Basic
import Mathlib.Algebra.Ring.Nat

/-!
# Ledgers of disjoint reservations

A ledger lists the blocks handed out from a set of available cells. It cannot
be built with a block outside that set or with two blocks that share a cell,
so every operation on a ledger returns a proof that this still holds.
-/

universe u v

/-- Blocks of cells taken from `avail`, pairwise disjoint. -/
structure Ledger {α : Type u} {β : Type v} (cells : β → Set α) (avail : Set α) where
  held : List β
  inside : ∀ b ∈ held, cells b ⊆ avail
  apart : held.Pairwise fun b c => Disjoint (cells b) (cells c)

namespace Ledger

variable {α : Type u} {β : Type v} {cells : β → Set α} {avail : Set α}

def empty : Ledger cells avail where
  held := []
  inside := by simp
  apart := .nil

def occupied (L : Ledger cells avail) : Set α := {x | ∃ b ∈ L.held, x ∈ cells b}

@[simp] theorem occupied_empty : (empty : Ledger cells avail).occupied = ∅ := by
  simp [occupied, empty]

def take (L : Ledger cells avail) (b : β) (hin : cells b ⊆ avail)
    (hfree : Disjoint (cells b) L.occupied) :
    Ledger cells avail where
  held := b :: L.held
  inside := by
    intro c hc
    rcases List.mem_cons.mp hc with rfl | hc
    · exact hin
    · exact L.inside c hc
  apart := by
    refine .cons (fun c hc => ?_) L.apart
    have hsub : cells c ⊆ L.occupied := fun x hx => ⟨c, hc, hx⟩
    exact hfree.mono_right hsub

@[simp] theorem occupied_take (L : Ledger cells avail) (b : β) (hin : cells b ⊆ avail)
    (hfree : Disjoint (cells b) L.occupied) : (L.take b hin hfree).occupied = cells b ∪ L.occupied := by
  ext x
  simp [occupied, take]

def total (L : Ledger cells avail) (size : β → Nat) : Nat := (L.held.map size).sum

variable [DecidableEq β]

def give (L : Ledger cells avail) (b : β) : Ledger cells avail where
  held := L.held.erase b
  inside := fun c hc => L.inside c (List.mem_of_mem_erase hc)
  apart := L.apart.sublist List.erase_sublist

/-- No other block covers the cells of a block that is held, so giving it back
frees exactly these. -/
theorem occupied_give (L : Ledger cells avail) {b : β} (hb : b ∈ L.held) :
    (L.give b).occupied = L.occupied \ cells b := by
  have hperm : L.held.Perm (b :: L.held.erase b) := List.perm_cons_erase hb
  have hapart : ∀ c ∈ L.held.erase b, Disjoint (cells b) (cells c) :=
    (List.pairwise_cons.mp (hperm.pairwise L.apart fun h => h.symm)).1
  ext x
  constructor
  · rintro ⟨c, hc, hx⟩
    exact ⟨⟨c, List.mem_of_mem_erase hc, hx⟩, fun hxb => Set.disjoint_left.mp (hapart c hc) hxb hx⟩
  · rintro ⟨⟨c, hc, hx⟩, hnb⟩
    rcases List.mem_cons.mp (hperm.mem_iff.mp hc) with rfl | hc
    · exact absurd hx hnb
    · exact ⟨c, hc, hx⟩

theorem total_give (L : Ledger cells avail) (size : β → Nat) {b : β} (hb : b ∈ L.held) :
    L.total size = size b + (L.give b).total size := by
  have hperm : L.held.Perm (b :: L.held.erase b) := List.perm_cons_erase hb
  rw [total, total, give, (hperm.map size).sum_eq, List.map_cons, List.sum_cons]

end Ledger
