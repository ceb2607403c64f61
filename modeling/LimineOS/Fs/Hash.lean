import Mathlib.Data.List.Nodup
import Mathlib.Order.Interval.Finset.Nat

/-!
# The hash table of `lib/hash.h`

`std::unordered_map` hashes with chaining: a table of chains of key-value
nodes. No key occurs twice in a chain, which the structure carries, and `get`,
`put` and `remove` are those of a finite map (`get_put`, `get_remove`).
-/

namespace LimineOS

-- ---------------------------------------------------------------------------
-- One chain
-- ---------------------------------------------------------------------------

namespace Chain

section
variable {K V : Type} [DecidableEq K]

def put (key : K) (value : V) : List (K × V) → List (K × V)
  | [] => [(key, value)]
  | node :: rest => if node.1 = key then (key, value) :: rest else node :: put key value rest

def get (key : K) : List (K × V) → Option V
  | [] => none
  | node :: rest => if node.1 = key then some node.2 else get key rest

def remove (key : K) : List (K × V) → List (K × V)
  | [] => []
  | node :: rest => if node.1 = key then rest else node :: remove key rest

variable {k j : K} {v : V} {c : List (K × V)}

theorem get_put : get j (put k v c) = if j = k then some v else get j c := by
  induction c with
  | nil => simp only [put, get, eq_comm]
  | cons node rest ih =>
    by_cases hk : node.1 = k
    · rw [put, if_pos hk, get, get, hk]
      by_cases hj : k = j
      · rw [if_pos hj, if_pos hj.symm]
      · rw [if_neg hj, if_neg (Ne.symm hj), if_neg hj]
    · rw [put, if_neg hk, get, get, ih]
      by_cases hj : node.1 = j
      · rw [if_pos hj, if_pos hj, if_neg (by rintro rfl; exact hk hj)]
      · rw [if_neg hj, if_neg hj]

theorem put_eq_self (h : get k c = some v) : put k v c = c := by
  induction c with
  | nil => simp [get] at h
  | cons node rest ih =>
    rw [get] at h
    rw [put]
    split_ifs at h ⊢ with hk
    · rw [← hk, ← Option.some.inj h]
    · rw [ih h]

theorem mem_keys_put {x : K} (h : x ∈ (put k v c).map Prod.fst) : x = k ∨ x ∈ c.map Prod.fst := by
  induction c with
  | nil => simpa [put] using h
  | cons node rest ih =>
    by_cases hk : node.1 = k
    · rw [put, if_pos hk, List.map_cons, List.mem_cons] at h
      exact h.imp_right fun h => List.mem_cons_of_mem _ h
    · rw [put, if_neg hk, List.map_cons, List.mem_cons] at h
      rcases h with rfl | h
      · exact .inr (List.mem_cons_self)
      · exact (ih h).imp_right fun h => List.mem_cons_of_mem _ h

theorem mem_put {node : K × V} (h : node ∈ put k v c) : node = (k, v) ∨ node ∈ c := by
  induction c with
  | nil => exact .inl (List.mem_singleton.mp h)
  | cons a rest ih =>
    rw [put] at h
    split at h
    · exact (List.mem_cons.mp h).imp_right (List.mem_cons_of_mem _)
    · rcases List.mem_cons.mp h with rfl | h
      · exact .inr List.mem_cons_self
      · exact (ih h).imp_right (List.mem_cons_of_mem _)

theorem nodup_put (h : (c.map Prod.fst).Nodup) : ((put k v c).map Prod.fst).Nodup := by
  induction c with
  | nil => simp [put]
  | cons node rest ih =>
    rw [List.map_cons, List.nodup_cons] at h
    by_cases hk : node.1 = k
    · rw [put, if_pos hk, List.map_cons, List.nodup_cons, ← hk]
      exact h
    · rw [put, if_neg hk, List.map_cons, List.nodup_cons]
      refine ⟨fun hmem => ?_, ih h.2⟩
      rcases mem_keys_put hmem with heq | hmem
      · exact hk heq
      · exact h.1 hmem

theorem get_eq_none (h : k ∉ c.map Prod.fst) : get k c = none := by
  induction c with
  | nil => rfl
  | cons node rest ih =>
    rw [List.map_cons, List.mem_cons, not_or] at h
    rw [get, if_neg (Ne.symm h.1), ih h.2]

theorem get_remove (h : (c.map Prod.fst).Nodup) :
    get j (remove k c) = if j = k then none else get j c := by
  induction c with
  | nil => simp [remove, get]
  | cons node rest ih =>
    rw [List.map_cons, List.nodup_cons] at h
    by_cases hk : node.1 = k
    · rw [remove, if_pos hk, get]
      by_cases hj : j = k
      · rw [if_pos hj, hj, ← hk, get_eq_none h.1]
      · rw [if_neg hj, if_neg (by rintro rfl; exact hj hk)]
    · rw [remove, if_neg hk, get, get, ih h.2]
      by_cases hj : node.1 = j
      · rw [if_pos hj, if_pos hj, if_neg (by rintro rfl; exact hk hj)]
      · rw [if_neg hj, if_neg hj]

theorem remove_sublist : (remove k c).Sublist c := by
  induction c with
  | nil => exact List.Sublist.refl _
  | cons node rest ih =>
    rw [remove]
    split
    · exact List.sublist_cons_self node rest
    · exact ih.cons_cons node

omit [DecidableEq K] in
theorem exists_split (h : k ∈ c.map Prod.fst) :
    ∃ c₁ w c₂, c = c₁ ++ (k, w) :: c₂ ∧ k ∉ c₁.map Prod.fst := by
  obtain ⟨keys₁, keys₂, hkeys, hk⟩ := List.eq_append_cons_of_mem h
  obtain ⟨c₁, rest, rfl, rfl, hrest⟩ := List.map_eq_append_iff.mp hkeys
  obtain ⟨⟨_, w⟩, c₂, rfl, rfl, -⟩ := List.map_eq_cons_iff.mp hrest
  exact ⟨c₁, w, c₂, rfl, hk⟩

theorem put_of_not_mem (h : k ∉ c.map Prod.fst) : put k v c = c ++ [(k, v)] := by
  induction c with
  | nil => rfl
  | cons node rest ih =>
    rw [List.map_cons, List.mem_cons, not_or] at h
    rw [put, if_neg (Ne.symm h.1), ih h.2]
    rfl

theorem put_split {c₁ c₂ : List (K × V)} {w : V} (h : k ∉ c₁.map Prod.fst) :
    put k v (c₁ ++ (k, w) :: c₂) = c₁ ++ (k, v) :: c₂ := by
  induction c₁ with
  | nil => exact if_pos rfl
  | cons node rest ih =>
    rw [List.map_cons, List.mem_cons, not_or] at h
    rw [List.cons_append, put, if_neg (Ne.symm h.1), ih h.2]
    rfl

theorem remove_of_not_mem (h : k ∉ c.map Prod.fst) : remove k c = c := by
  induction c with
  | nil => rfl
  | cons node rest ih =>
    rw [List.map_cons, List.mem_cons, not_or] at h
    rw [remove, if_neg (Ne.symm h.1), ih h.2]

theorem remove_split {c₁ c₂ : List (K × V)} {w : V} (h : k ∉ c₁.map Prod.fst) :
    remove k (c₁ ++ (k, w) :: c₂) = c₁ ++ c₂ := by
  induction c₁ with
  | nil => exact if_pos rfl
  | cons node rest ih =>
    rw [List.map_cons, List.mem_cons, not_or] at h
    rw [List.cons_append, remove, if_neg (Ne.symm h.1), ih h.2]
    rfl

end

end Chain

-- ---------------------------------------------------------------------------
-- The table
-- ---------------------------------------------------------------------------

/-- `KeyHash`: the key converted to `unsigned long`, modulo the table size. -/
def keyHash (tableSize : Nat) (key : BitVec 32) : Nat := (key.signExtend 64).toNat % tableSize

theorem keyHash_lt {tableSize : Nat} (h : 0 < tableSize) (key : BitVec 32) :
    keyHash tableSize key < tableSize :=
  Nat.mod_lt _ h

structure UnorderedMap (K V : Type) (hash : K → Nat) where
  table : Nat → List (K × V)
  nodup : ∀ i, ((table i).map Prod.fst).Nodup

namespace UnorderedMap

section
variable {K V : Type} {hash : K → Nat} [DecidableEq K]

def empty : UnorderedMap K V hash := ⟨fun _ => [], fun _ => List.nodup_nil⟩

def put (m : UnorderedMap K V hash) (key : K) (value : V) : UnorderedMap K V hash where
  table := Function.update m.table (hash key) (Chain.put key value (m.table (hash key)))
  nodup i := by
    rcases eq_or_ne i (hash key) with rfl | hi
    · rw [Function.update_self]
      exact Chain.nodup_put (m.nodup _)
    · rw [Function.update_of_ne hi]
      exact m.nodup i

def Bucketed (m : UnorderedMap K V hash) : Prop := ∀ i, ∀ node ∈ m.table i, hash node.1 = i

def get (m : UnorderedMap K V hash) (key : K) : Option V := Chain.get key (m.table (hash key))

def remove (m : UnorderedMap K V hash) (key : K) : UnorderedMap K V hash where
  table := Function.update m.table (hash key) (Chain.remove key (m.table (hash key)))
  nodup i := by
    rcases eq_or_ne i (hash key) with rfl | hi
    · rw [Function.update_self]
      exact (m.nodup _).sublist (Chain.remove_sublist.map _)
    · rw [Function.update_of_ne hi]
      exact m.nodup i

omit [DecidableEq K] in
theorem bucketed_empty : (empty : UnorderedMap K V hash).Bucketed :=
  fun _ _ h => absurd h List.not_mem_nil

theorem Bucketed.put {m : UnorderedMap K V hash} (hm : m.Bucketed) (k : K) (v : V) :
    (m.put k v).Bucketed := by
  intro i node hnode
  change node ∈ Function.update m.table _ _ i at hnode
  rcases eq_or_ne i (hash k) with rfl | hi
  · rw [Function.update_self] at hnode
    rcases Chain.mem_put hnode with rfl | hnode
    · rfl
    · exact hm _ _ hnode
  · rw [Function.update_of_ne hi] at hnode
    exact hm i node hnode

theorem Bucketed.remove {m : UnorderedMap K V hash} (hm : m.Bucketed) (k : K) :
    (m.remove k).Bucketed := by
  intro i node hnode
  change node ∈ Function.update m.table _ _ i at hnode
  rcases eq_or_ne i (hash k) with rfl | hi
  · rw [Function.update_self] at hnode
    exact hm _ _ (Chain.remove_sublist.subset hnode)
  · rw [Function.update_of_ne hi] at hnode
    exact hm i node hnode

@[simp] theorem get_empty (k : K) : (empty : UnorderedMap K V hash).get k = none := rfl

@[simp] theorem get_put (m : UnorderedMap K V hash) (k j : K) (v : V) :
    (m.put k v).get j = if j = k then some v else m.get j := by
  unfold get put
  by_cases hh : hash j = hash k
  · simp only [hh, Function.update_self, Chain.get_put]
  · simp only [Function.update_of_ne hh]
    rw [if_neg (by rintro rfl; exact hh rfl)]

theorem put_eq_self_iff (m : UnorderedMap K V hash) (k : K) (v : V) :
    m.put k v = m ↔ m.get k = some v := by
  constructor
  · intro h
    rw [← h, get_put, if_pos rfl]
  · intro h
    have htable : (m.put k v).table = m.table := by
      show Function.update m.table (hash k) (Chain.put k v (m.table (hash k))) = m.table
      rw [Chain.put_eq_self h, Function.update_eq_self]
    cases m
    exact (mk.injEq ..).mpr htable

@[simp] theorem get_remove (m : UnorderedMap K V hash) (k j : K) :
    (m.remove k).get j = if j = k then none else m.get j := by
  unfold get remove
  by_cases hh : hash j = hash k
  · simp only [hh, Function.update_self, Chain.get_remove (m.nodup _)]
  · simp only [Function.update_of_ne hh]
    rw [if_neg (by rintro rfl; exact hh rfl)]

end

end UnorderedMap

end LimineOS
