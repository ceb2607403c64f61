import LimineOS.Fs.Hash
import LimineOS.Lib.LinkedList
import LimineOS.Lib.Transition

/-!
# The nodes of the hash table

`put`, `get` and `remove` as the source has them, on a table of pointers and a
heap of nodes. They do to the chains of nodes what those of `UnorderedMap` do to
lists (`Represents`), and so the table is a finite map after any operations
(`run_isMap`).
-/

namespace LimineOS

open LinkedList Transition

abbrev NodePtr := Nat

structure HashNode (K V : Type) where
  key : K
  value : V
  next : Option NodePtr := none

structure HashTable (K V : Type) (hash : K → Nat) where
  table : Nat → Option NodePtr := fun _ => none
  nodes : NodePtr → Option (HashNode K V)

namespace HashTable

section
variable {K V : Type} {hash : K → Nat} [DecidableEq K]

def setNode (m : HashTable K V hash) (p : NodePtr) (node : Option (HashNode K V)) :
    HashTable K V hash :=
  { m with nodes := Function.update m.nodes p node }

def setTable (m : HashTable K V hash) (i : Nat) (p : Option NodePtr) : HashTable K V hash :=
  { m with table := Function.update m.table i p }

def modifyNode (m : HashTable K V hash) (p : NodePtr) (f : HashNode K V → HashNode K V) :
    Option (HashTable K V hash) :=
  (m.nodes p).map fun node => m.setNode p (some (f node))

/-- The loop of `put` and `remove`, with `prev` and `entry`. -/
def search (m : HashTable K V hash) (key : K) :
    Nat → Option NodePtr → Option NodePtr → Option (Option NodePtr × Option NodePtr)
  | 0, _, _ => none
  | _ + 1, prev, none => some (prev, none)
  | fuel + 1, prev, some entry => do
    let node ← m.nodes entry
    if node.key ≠ key then m.search key fuel (some entry) node.next else some (prev, some entry)

/-- `p` is the block that `new` returns, if it comes to that. -/
def put (fuel : Nat) (m : HashTable K V hash) (key : K) (value : V) (p : NodePtr) :
    Option (HashTable K V hash) := do
  let (prev, entry) ← m.search key fuel none (m.table (hash key))
  match entry with
  | none =>
    let m := m.setNode p (some { key, value })
    match prev with
    | none => some (m.setTable (hash key) (some p))
    | some prev => m.modifyNode prev fun node => { node with next := some p }
  | some entry => m.modifyNode entry fun node => { node with value }

def getFrom (m : HashTable K V hash) (key : K) (value : V) : Nat → Option NodePtr → Option (Bool × V)
  | 0, _ => none
  | _ + 1, none => some (false, value)
  | fuel + 1, some entry => do
    let node ← m.nodes entry
    if node.key = key then some (true, node.value) else m.getFrom key value fuel node.next

def get (fuel : Nat) (m : HashTable K V hash) (key : K) (value : V) : Option (Bool × V) :=
  m.getFrom key value fuel (m.table (hash key))

def remove (fuel : Nat) (m : HashTable K V hash) (key : K) : Option (HashTable K V hash) := do
  let (prev, entry) ← m.search key fuel none (m.table (hash key))
  match entry with
  | none => some m
  | some entry =>
    let node ← m.nodes entry
    let m ← match prev with
      | none => some (m.setTable (hash key) node.next)
      | some prev => m.modifyNode prev fun n => { n with next := node.next }
    some (m.setNode entry none)

def next (m : HashTable K V hash) (p : NodePtr) : Option NodePtr := (m.nodes p).bind HashNode.next

def entry (m : HashTable K V hash) (p : NodePtr) : Option (K × V) :=
  (m.nodes p).map fun node => (node.key, node.value)

/-- The chain of bucket `i` is made of the nodes `ptrs i`, which hold what the
map has in that bucket, and no node is in two chains. -/
structure Represents (m : HashTable K V hash) (ptrs : Nat → List NodePtr)
    (u : UnorderedMap K V hash) : Prop where
  linked : ∀ i, Linked m.next (m.table i) (ptrs i)
  entries : ∀ i, (ptrs i).map m.entry = (u.table i).map some
  nodup : ∀ i, (ptrs i).Nodup
  apart : ∀ i j, i ≠ j → (ptrs i).Disjoint (ptrs j)

variable {m m' : HashTable K V hash} {u u' : UnorderedMap K V hash} {ptrs : Nat → List NodePtr}
  {key : K} {value w : V}
  {h prev : Option NodePtr} {l A B : List NodePtr} {c c₁ c₂ : List (K × V)} {p : NodePtr}
  {fuel fuel' i : Nat}
  {r : Option NodePtr × Option NodePtr}

section
omit [DecidableEq K]
variable {q : NodePtr} {node : Option (HashNode K V)}

@[simp] theorem setNode_table : (m.setNode p node).table = m.table := rfl
@[simp] theorem setTable_nodes : (m.setTable i h).nodes = m.nodes := rfl
@[simp] theorem setTable_next : (m.setTable i h).next = m.next := rfl
@[simp] theorem setTable_entry : (m.setTable i h).entry = m.entry := rfl
@[simp] theorem setTable_self : (m.setTable i h).table i = h := Function.update_self ..
@[simp] theorem setNode_self : (m.setNode p node).nodes p = node := Function.update_self ..

theorem setTable_of_ne {j : Nat} (hj : j ≠ i) : (m.setTable i h).table j = m.table j :=
  Function.update_of_ne hj ..

theorem setNode_of_ne (hq : q ≠ p) : (m.setNode p node).nodes q = m.nodes q :=
  Function.update_of_ne hq ..

theorem next_congr (hq : m'.nodes q = m.nodes q) : m'.next q = m.next q :=
  congrArg (Option.bind · HashNode.next) hq

theorem entry_congr (hq : m'.nodes q = m.nodes q) : m'.entry q = m.entry q := congrArg _ hq

end

-- ---------------------------------------------------------------------------
-- The loops
-- ---------------------------------------------------------------------------

omit [DecidableEq K] in
theorem entry_some (hp : m.entry p = some (key, w)) :
    m.nodes p = some { key, value := w, next := m.next p } := by
  obtain ⟨node, hnode, heq⟩ := Option.map_eq_some_iff.mp hp
  obtain ⟨rfl, rfl⟩ := Prod.mk.inj heq
  rw [next, hnode]
  rfl

theorem search_mono (hs : m.search key fuel prev h = some r) (hle : fuel ≤ fuel') :
    m.search key fuel' prev h = some r := by
  induction fuel generalizing prev h fuel' with
  | zero => simp [search] at hs
  | succ fuel ih =>
    obtain ⟨fuel', rfl⟩ : ∃ k, fuel' = k + 1 := ⟨fuel' - 1, by omega⟩
    cases h with
    | none => exact hs
    | some entry =>
      rw [search] at hs ⊢
      obtain ⟨node, hnode, hs⟩ := Option.bind_eq_some_iff.mp hs
      rw [hnode, Option.bind_eq_bind, Option.bind_some]
      split_ifs at hs ⊢ with hkey
      · exact ih hs (Nat.le_of_succ_le_succ hle)
      · exact hs

theorem search_none (hl : Linked m.next h l) (he : l.map m.entry = c.map some)
    (hk : key ∉ c.map Prod.fst)
    (hfuel : l.length < fuel) : m.search key fuel prev h = some (l.getLast?.or prev, none) := by
  induction l generalizing h c prev fuel with
  | nil =>
    obtain ⟨fuel, rfl⟩ : ∃ k, fuel = k + 1 := ⟨fuel - 1, by omega⟩
    obtain rfl : h = none := hl
    rfl
  | cons p l ih =>
    obtain ⟨fuel, rfl⟩ : ∃ k, fuel = k + 1 := ⟨fuel - 1, by omega⟩
    obtain ⟨rfl, hl⟩ := hl
    obtain ⟨⟨k, w⟩, c, rfl⟩ : ∃ a c', c = a :: c' := by
      cases c with
      | nil => simp at he
      | cons a c => exact ⟨a, c, rfl⟩
    obtain ⟨hp, he⟩ := List.cons.inj he
    rw [List.map_cons, List.mem_cons, not_or] at hk
    rw [search, entry_some hp, Option.bind_eq_bind, Option.bind_some, if_pos (Ne.symm hk.1),
      ih hl he hk.2 (Nat.lt_of_succ_lt_succ hfuel), List.getLast?_cons]
    cases l.getLast? <;> rfl

theorem search_some (hl : Linked m.next h (A ++ p :: B)) (hA : A.map m.entry = c₁.map some)
    (hk : key ∉ c₁.map Prod.fst)
    (hp : m.entry p = some (key, w)) (hfuel : A.length < fuel) :
    m.search key fuel prev h = some (A.getLast?.or prev, some p) := by
  induction A generalizing h c₁ prev fuel with
  | nil =>
    obtain ⟨fuel, rfl⟩ : ∃ k, fuel = k + 1 := ⟨fuel - 1, by omega⟩
    obtain ⟨rfl, -⟩ := hl
    rw [search, entry_some hp, Option.bind_eq_bind, Option.bind_some, if_neg (not_not.mpr rfl)]
    rfl
  | cons a A ih =>
    obtain ⟨fuel, rfl⟩ : ∃ k, fuel = k + 1 := ⟨fuel - 1, by omega⟩
    obtain ⟨rfl, hl⟩ := hl
    obtain ⟨⟨k, v⟩, c₁, rfl⟩ : ∃ a c', c₁ = a :: c' := by
      cases c₁ with
      | nil => simp at hA
      | cons a c => exact ⟨a, c, rfl⟩
    obtain ⟨ha, hA⟩ := List.cons.inj hA
    rw [List.map_cons, List.mem_cons, not_or] at hk
    rw [search, entry_some ha, Option.bind_eq_bind, Option.bind_some, if_pos (Ne.symm hk.1),
      ih hl hA hk.2 (Nat.lt_of_succ_lt_succ hfuel), List.getLast?_cons]
    cases A.getLast? <;> rfl

theorem getFrom_eq (hl : Linked m.next h l) (he : l.map m.entry = c.map some)
    (hfuel : l.length < fuel) :
    m.getFrom key value fuel h = some (match Chain.get key c with
      | some w => (true, w)
      | none => (false, value)) := by
  induction l generalizing h c fuel with
  | nil =>
    obtain ⟨fuel, rfl⟩ : ∃ k, fuel = k + 1 := ⟨fuel - 1, by omega⟩
    obtain rfl : h = none := hl
    obtain rfl : c = [] := List.map_eq_nil_iff.mp he.symm
    rfl
  | cons p l ih =>
    obtain ⟨fuel, rfl⟩ : ∃ k, fuel = k + 1 := ⟨fuel - 1, by omega⟩
    obtain ⟨rfl, hl⟩ := hl
    obtain ⟨⟨k, w⟩, c, rfl⟩ : ∃ a c', c = a :: c' := by
      cases c with
      | nil => simp at he
      | cons a c => exact ⟨a, c, rfl⟩
    obtain ⟨hp, he⟩ := List.cons.inj he
    rw [getFrom, entry_some hp, Option.bind_eq_bind, Option.bind_some, Chain.get]
    split_ifs with hkey
    · rfl
    · exact ih hl he (Nat.lt_of_succ_lt_succ hfuel)

omit [DecidableEq K] in
theorem modifyNode_some {node : HashNode K V} {f : HashNode K V → HashNode K V}
    (hp : m.nodes p = some node) :
    m.modifyNode p f = some (m.setNode p (some (f node))) := by
  rw [modifyNode, hp]
  rfl

-- ---------------------------------------------------------------------------
-- The operations keep the chains
-- ---------------------------------------------------------------------------

section
omit [DecidableEq K]

theorem Represents.live (hr : m.Represents ptrs u) (hp : p ∈ ptrs i) : m.nodes p ≠ none := by
  intro hnone
  have hmem : m.entry p ∈ (u.table i).map some := hr.entries i ▸ List.mem_map_of_mem hp
  obtain ⟨a, -, ha⟩ := List.mem_map.mp hmem
  simp [entry, hnone] at ha

theorem map_entry_congr (hsame : ∀ q ∈ l, m'.nodes q = m.nodes q) : l.map m'.entry = l.map m.entry :=
  List.map_congr_left fun q hq => entry_congr (hsame q hq)

theorem map_entry_relink {t : NodePtr} {node : HashNode K V} (ht : m.nodes t = some node)
    (ht' : m'.nodes t = some { node with next := h }) (hsame : ∀ q ∈ l, m'.nodes q = m.nodes q) :
    (l ++ [t]).map m'.entry = (l ++ [t]).map m.entry := by
  have hentry : m'.entry t = m.entry t := by simp [entry, ht, ht']
  rw [List.map_append, List.map_append, map_entry_congr hsame, List.map_singleton,
    List.map_singleton, hentry]

theorem Represents.update (hr : m.Represents ptrs u) (hu : u'.table = Function.update u.table i c)
    (htable : ∀ j, j ≠ i → m'.table j = m.table j)
    (hnodes : ∀ q, q ∉ ptrs i → m.nodes q ≠ none → m'.nodes q = m.nodes q)
    (hl : Linked m'.next (m'.table i) l) (he : l.map m'.entry = c.map some) (hnd : l.Nodup)
    (hsub : ∀ q ∈ l, q ∈ ptrs i ∨ m.nodes q = none) : m'.Represents (Function.update ptrs i l) u' := by
  have hother : ∀ j, j ≠ i → ∀ q ∈ ptrs j, m'.nodes q = m.nodes q := fun j hj q hq =>
    hnodes q (hr.apart j i hj hq) (hr.live hq)
  have hapart : ∀ j, j ≠ i → l.Disjoint (ptrs j) := by
    intro j hj q hql hqj
    rcases hsub q hql with hqi | hnone
    · exact hr.apart j i hj hqj hqi
    · exact hr.live hqj hnone
  refine ⟨fun j => ?_, fun j => ?_, fun j => ?_, fun j j' hjj' => ?_⟩
  · rcases eq_or_ne j i with rfl | hj
    · rwa [Function.update_self]
    · rw [Function.update_of_ne hj, htable j hj]
      exact (hr.linked j).congr fun q hq => next_congr (hother j hj q hq)
  · rcases eq_or_ne j i with rfl | hj
    · rwa [hu, Function.update_self, Function.update_self]
    · rw [hu, Function.update_of_ne hj, Function.update_of_ne hj, map_entry_congr (hother j hj)]
      exact hr.entries j
  · rcases eq_or_ne j i with rfl | hj
    · rwa [Function.update_self]
    · rw [Function.update_of_ne hj]
      exact hr.nodup j
  · rcases eq_or_ne j i with rfl | hj
    · rw [Function.update_self, Function.update_of_ne hjj'.symm]
      exact hapart j' hjj'.symm
    · rcases eq_or_ne j' i with rfl | hj'
      · rw [Function.update_self, Function.update_of_ne hj]
        exact (hapart j hj).symm
      · rw [Function.update_of_ne hj, Function.update_of_ne hj']
        exact hr.apart j j' hjj'

theorem Represents.split (hr : m.Represents ptrs u) (hk : key ∈ (u.table i).map Prod.fst) :
    ∃ A p B c₁ w c₂, ptrs i = A ++ p :: B ∧ p ∉ A ++ B ∧ u.table i = c₁ ++ (key, w) :: c₂ ∧
      A.map m.entry = c₁.map some ∧ m.entry p = some (key, w) ∧ B.map m.entry = c₂.map some ∧
      key ∉ c₁.map Prod.fst := by
  classical
  obtain ⟨c₁, w, c₂, hc, hk⟩ := Chain.exists_split hk
  have he := hr.entries i
  rw [hc, List.map_append, List.map_cons] at he
  obtain ⟨A, rest, hl, hA, hrest⟩ := List.map_eq_append_iff.mp he
  obtain ⟨p, B, rfl, hp, hB⟩ := List.map_eq_cons_iff.mp hrest
  have hpAB : p ∉ A ++ B := (List.nodup_cons.mp (List.nodup_middle.mp (hl ▸ hr.nodup i))).1
  exact ⟨A, p, B, c₁, w, c₂, hl, hpAB, hc, hA, hp, hB, hk⟩

end

theorem Represents.put_old (hr : m.Represents ptrs u) (hk : key ∈ (u.table (hash key)).map Prod.fst) :
    ∃ m' ptrs', (∃ n, ∀ fuel, n ≤ fuel → m.put fuel key value p = some m') ∧
      m'.Represents ptrs' (u.put key value) := by
  obtain ⟨A, q, B, c₁, w, c₂, hl, hqAB, hc, hA, hq, hB, hk⟩ := hr.split hk
  have hlink := hr.linked (hash key)
  have hnd := hr.nodup (hash key)
  rw [hl] at hlink hnd
  refine ⟨m.setNode q (some { key, value, next := m.next q }), _, ⟨A.length + 1, fun fuel hfuel => ?_⟩,
    hr.update (i := hash key) (l := A ++ q :: B) (c := c₁ ++ (key, value) :: c₂) ?_ (fun _ _ => rfl)
      ?_ ?_ ?_ hnd ?_⟩
  · rw [HashTable.put, search_some hlink hA hk hq hfuel]
    exact modifyNode_some (entry_some hq)
  · show Function.update u.table _ _ = _
    rw [hc, Chain.put_split hk]
  · exact fun b hb _ => setNode_of_ne (by rintro rfl; exact hb (hl ▸ by simp))
  · refine hlink.congr fun b _ => ?_
    rcases eq_or_ne b q with rfl | hb
    · simp [next]
    · exact next_congr (setNode_of_ne hb)
  · have hother : ∀ b ∈ A ++ B,
        (m.setNode q (some { key, value, next := m.next q })).nodes b = m.nodes b :=
      fun b hb => setNode_of_ne (ne_of_mem_of_not_mem hb hqAB)
    rw [List.map_append, List.map_cons, List.map_append, List.map_cons,
      map_entry_congr fun b hb => hother b (List.mem_append_left _ hb), hA,
      map_entry_congr fun b hb => hother b (List.mem_append_right _ hb), hB]
    simp [entry]
  · exact fun b hb => .inl (hl ▸ hb)

theorem Represents.put_new (hr : m.Represents ptrs u) (hk : key ∉ (u.table (hash key)).map Prod.fst)
    (hp : m.nodes p = none) :
    ∃ m' ptrs', (∃ n, ∀ fuel, n ≤ fuel → m.put fuel key value p = some m') ∧
      m'.Represents ptrs' (u.put key value) := by
  have hfresh : p ∉ ptrs (hash key) := fun hmem => hr.live hmem hp
  have hlink := hr.linked (hash key)
  have hentries := hr.entries (hash key)
  have hnd := hr.nodup (hash key)
  have hu : (u.put key value).table = Function.update u.table (hash key)
      (u.table (hash key) ++ [(key, value)]) := by
    show Function.update u.table _ _ = _
    rw [Chain.put_of_not_mem hk]
  rcases List.eq_nil_or_concat' (ptrs (hash key)) with hnil | ⟨l, t, hlt⟩
  · rw [hnil] at hlink hentries
    have hc : u.table (hash key) = [] := List.map_eq_nil_iff.mp hentries.symm
    refine ⟨(m.setNode p (some { key, value })).setTable (hash key) (some p), _,
      ⟨1, fun fuel hfuel => ?_⟩, hr.update (l := [p]) hu ?_ ?_ ?_ ?_ (List.nodup_singleton p) ?_⟩
    · rw [HashTable.put, search_none hlink hentries hk hfuel]
      rfl
    · exact fun j hj => setTable_of_ne hj
    · exact fun b _ hb => setNode_of_ne (by rintro rfl; exact hb hp)
    · exact ⟨setTable_self, by simp [Linked, next]⟩
    · simp [hc, entry]
    · simp [hp]
  · rw [hlt] at hlink hentries hnd hfresh
    have htl : t ∉ l := (List.nodup_cons.mp (List.nodup_middle.mp hnd)).1 ∘ List.mem_append_left _
    have hpt : t ≠ p := ne_of_mem_of_not_mem (by simp) hfresh
    obtain ⟨node, hnode⟩ :=
      Option.ne_none_iff_exists'.mp (hr.live (i := hash key) (p := t) (by simp [hlt]))
    let m' := (m.setNode p (some { key, value })).setNode t (some { node with next := some p })
    have hother : ∀ b, b ≠ p → b ≠ t → m'.nodes b = m.nodes b := fun b hbp hbt =>
      (setNode_of_ne hbt).trans (setNode_of_ne hbp)
    have hp' : m'.nodes p = some { key, value } := (setNode_of_ne hpt.symm).trans setNode_self
    have ht' : m'.nodes t = some { node with next := some p } := setNode_self
    refine ⟨m', _, ⟨(l ++ [t]).length + 1, fun fuel hfuel => ?_⟩,
      hr.update (l := l ++ [t] ++ [p]) hu (fun _ _ => rfl) ?_ ?_ ?_ ?_ ?_⟩
    · rw [HashTable.put, search_none hlink hentries hk hfuel, List.getLast?_concat]
      exact modifyNode_some ((setNode_of_ne hpt).trans hnode)
    · exact fun b hb hlive =>
        hother b (by rintro rfl; exact hlive hp) (by rintro rfl; exact hb (by simp [hlt]))
    · refine hlink.snoc hfresh htl (by simp [next, ht']) (by simp [next, hp']) fun b hb =>
        next_congr (hother b ?_ ?_)
      · exact ne_of_mem_of_not_mem (List.mem_append_left _ hb) hfresh
      · exact ne_of_mem_of_not_mem hb htl
    · have hall : (l ++ [t]).map m'.entry = (l ++ [t]).map m.entry :=
        map_entry_relink hnode ht' fun b hb =>
          hother b (ne_of_mem_of_not_mem (List.mem_append_left _ hb) hfresh)
          (ne_of_mem_of_not_mem hb htl)
      rw [List.map_append, hall, hentries]
      simp [entry, hp']
    · exact List.nodup_append'.mpr ⟨hnd, List.nodup_singleton p, by simpa using hfresh⟩
    · intro b hb
      rcases List.mem_append.mp hb with hb | hb
      · exact .inl (hlt ▸ hb)
      · exact .inr (List.mem_singleton.mp hb ▸ hp)

theorem Represents.put (hr : m.Represents ptrs u) (key : K) (value : V) (hp : m.nodes p = none) :
    ∃ m' ptrs', (∃ n, ∀ fuel, n ≤ fuel → m.put fuel key value p = some m') ∧
      m'.Represents ptrs' (u.put key value) := by
  by_cases hk : key ∈ (u.table (hash key)).map Prod.fst
  · exact hr.put_old hk
  · exact hr.put_new hk hp

theorem Represents.remove_old (hr : m.Represents ptrs u)
    (hk : key ∈ (u.table (hash key)).map Prod.fst) :
    ∃ m' ptrs', (∃ n, ∀ fuel, n ≤ fuel → m.remove fuel key = some m') ∧
      m'.Represents ptrs' (u.remove key) := by
  obtain ⟨A, q, B, c₁, w, c₂, hl, hqAB, hc, hA, hq, hB, hk⟩ := hr.split hk
  have hlink := hr.linked (hash key)
  have hnd := hr.nodup (hash key)
  rw [hl] at hlink hnd
  have hu : (u.remove key).table = Function.update u.table (hash key) (c₁ ++ c₂) := by
    show Function.update u.table _ _ = _
    rw [hc, Chain.remove_split hk]
  have hnd' : (A ++ B).Nodup := (List.nodup_cons.mp (List.nodup_middle.mp hnd)).2
  have hsub : ∀ b ∈ A ++ B, b ∈ ptrs (hash key) ∨ m.nodes b = none := fun b hb =>
    .inl (hl ▸ List.mem_append.mpr ((List.mem_append.mp hb).imp_right (List.mem_cons_of_mem q)))
  rcases List.eq_nil_or_concat' A with rfl | ⟨A, t, rfl⟩
  · -- the first node of the chain
    have hother : ∀ b, b ≠ q →
        ((m.setTable (hash key) (m.next q)).setNode q none).nodes b = m.nodes b := fun b hb =>
      setNode_of_ne hb
    refine ⟨(m.setTable (hash key) (m.next q)).setNode q none, _, ⟨1, fun fuel hfuel => ?_⟩,
      hr.update (l := [] ++ B) hu (fun j hj => setTable_of_ne hj) ?_ ?_ ?_ hnd' hsub⟩
    · rw [HashTable.remove, search_some hlink hA hk hq hfuel]
      simp [entry_some hq]
    · exact fun b hb _ => hother b (by rintro rfl; exact hb (hl ▸ by simp))
    · rw [setNode_table, setTable_self]
      exact hlink.2.congr fun b hb => next_congr (hother b (ne_of_mem_of_not_mem hb hqAB))
    · rw [map_entry_congr fun b hb => hother b (ne_of_mem_of_not_mem hb hqAB), List.map_append,
        List.map_append, hA, hB]
  · -- a node behind the node `t`
    obtain ⟨node, hnode⟩ :=
      Option.ne_none_iff_exists'.mp (hr.live (i := hash key) (p := t) (by simp [hl]))
    rw [List.append_assoc, List.singleton_append] at hlink hqAB hnd'
    have htq : t ≠ q := by
      rintro rfl
      simp at hqAB
    have htA : t ∉ A ++ B := (List.nodup_cons.mp (List.nodup_middle.mp hnd')).1
    let m' := (m.setNode t (some { node with next := m.next q })).setNode q none
    have hother : ∀ b, b ≠ t → b ≠ q → m'.nodes b = m.nodes b := fun b hbt hbq =>
      (setNode_of_ne hbq).trans (setNode_of_ne hbt)
    have ht' : m'.nodes t = some { node with next := m.next q } :=
      (setNode_of_ne htq).trans setNode_self
    have hqB : ∀ b ∈ A ++ B, b ≠ q := fun b hb =>
      ne_of_mem_of_not_mem
        (List.mem_append.mpr ((List.mem_append.mp hb).imp_right (List.mem_cons_of_mem t))) hqAB
    have hrest : ∀ b ∈ A ++ B, m'.nodes b = m.nodes b := fun b hb =>
      hother b (ne_of_mem_of_not_mem hb htA) (hqB b hb)
    refine ⟨m', _, ⟨(A ++ [t]).length + 1, fun fuel hfuel => ?_⟩,
      hr.update (l := A ++ t :: B) hu (fun _ _ => rfl) ?_ ?_ ?_ hnd' ?_⟩
    · rw [HashTable.remove, search_some (by simpa using hlink) hA hk hq hfuel, List.getLast?_concat]
      simp [entry_some hq, modifyNode_some hnode, m']
    · exact fun b hb _ =>
        hother b (by rintro rfl; exact hb (hl ▸ by simp)) (by rintro rfl; exact hb (hl ▸ by simp))
    · exact hlink.unlink (by simp [next, ht']) fun b hb => next_congr (hrest b hb)
    · have hAt : (A ++ [t]).map m'.entry = (A ++ [t]).map m.entry :=
        map_entry_relink hnode ht' fun b hb => hrest b (List.mem_append_left _ hb)
      rw [← List.singleton_append (l := B), ← List.append_assoc, List.map_append, hAt, hA,
        map_entry_congr fun b hb => hrest b (List.mem_append_right _ hb), hB, List.map_append]
    · simpa using hsub

theorem Represents.remove_new (hr : m.Represents ptrs u)
    (hk : key ∉ (u.table (hash key)).map Prod.fst) :
    (∃ n, ∀ fuel, n ≤ fuel → m.remove fuel key = some m) ∧ u.remove key = u := by
  refine ⟨⟨(ptrs (hash key)).length + 1, fun fuel hfuel => ?_⟩, ?_⟩
  · rw [HashTable.remove, search_none (hr.linked _) (hr.entries _) hk hfuel]
    rfl
  · have htable : (u.remove key).table = u.table := by
      show Function.update u.table _ _ = _
      rw [Chain.remove_of_not_mem hk, Function.update_eq_self]
    cases u
    exact (UnorderedMap.mk.injEq ..).mpr htable

theorem Represents.remove (hr : m.Represents ptrs u) (key : K) :
    ∃ m' ptrs', (∃ n, ∀ fuel, n ≤ fuel → m.remove fuel key = some m') ∧
      m'.Represents ptrs' (u.remove key) := by
  by_cases hk : key ∈ (u.table (hash key)).map Prod.fst
  · exact hr.remove_old hk
  · obtain ⟨hfuel, hu⟩ := hr.remove_new hk
    exact ⟨m, ptrs, hfuel, by rwa [hu]⟩

-- ---------------------------------------------------------------------------
-- Any calls
-- ---------------------------------------------------------------------------

inductive Event (K V : Type)
  | put (key : K) (value : V) (p : NodePtr)
  | get (key : K) (value : V) (result : Bool × V)
  | remove (key : K)

def Event.target : Event K V → K
  | .put key .. | .get key .. | .remove key => key

def Gets (m : HashTable K V hash) (key : K) (value : V) (result : Bool × V) : Prop :=
  ∃ fuel, m.get fuel key value = some result

/-- One call that returns. `new` gives `put` a block that holds no node. -/
def Step (m : HashTable K V hash) : Event K V → HashTable K V hash → Prop
  | .put key value p, m' => m.nodes p = none ∧ ∃ fuel, m.put fuel key value p = some m'
  | .get key value result, m' => m.Gets key value result ∧ m' = m
  | .remove key, m' => ∃ fuel, m.remove fuel key = some m'

/-- The value of the last `put` of the key that no `remove` has followed, newest
event first. -/
def stored (key : K) : List (Event K V) → Option V
  | [] => none
  | .put k v _ :: past => if key = k then some v else stored key past
  | .get .. :: past => stored key past
  | .remove k :: past => if key = k then none else stored key past

def answer (value : V) : Option V → Bool × V
  | some w => (true, w)
  | none => (false, value)

/-- The table is the finite map `f`: `get` answers by it, every chain is finite
with keys of its own bucket, each once, every call returns, and a call changes
the answers for its own key only. -/
structure IsMap (m : HashTable K V hash) (f : K → Option V) : Prop where
  gets : ∀ key value result, m.Gets key value result ↔ result = answer value (f key)
  chains : ∀ i, ∃ l, ∃ c : List (K × V),
    Linked m.next (m.table i) l ∧ l.map m.entry = c.map some ∧ (c.map Prod.fst).Nodup ∧
    ∀ node ∈ c, hash node.1 = i
  puts : ∀ key value p, m.nodes p = none → ∃ m', Step m (.put key value p) m'
  removes : ∀ key, ∃ m', Step m (.remove key) m'
  frame : ∀ e m', Step m e m' →
    ∀ key, key ≠ e.target → ∀ value result, m'.Gets key value result ↔ m.Gets key value result

theorem put_mono (hput : m.put fuel key value p = some m') (hle : fuel ≤ fuel') :
    m.put fuel' key value p = some m' := by
  obtain ⟨r, hr, hput⟩ := Option.bind_eq_some_iff.mp hput
  exact Option.bind_eq_some_iff.mpr ⟨r, search_mono hr hle, hput⟩

theorem remove_mono (hrem : m.remove fuel key = some m') (hle : fuel ≤ fuel') :
    m.remove fuel' key = some m' := by
  obtain ⟨r, hr, hrem⟩ := Option.bind_eq_some_iff.mp hrem
  exact Option.bind_eq_some_iff.mpr ⟨r, search_mono hr hle, hrem⟩

theorem getFrom_mono {r : Bool × V} (hget : m.getFrom key value fuel h = some r) (hle : fuel ≤ fuel') :
    m.getFrom key value fuel' h = some r := by
  induction fuel generalizing h fuel' with
  | zero => simp [getFrom] at hget
  | succ fuel ih =>
    obtain ⟨fuel', rfl⟩ : ∃ k, fuel' = k + 1 := ⟨fuel' - 1, by omega⟩
    cases h with
    | none => exact hget
    | some entry =>
      rw [getFrom] at hget ⊢
      obtain ⟨node, hnode, hget⟩ := Option.bind_eq_some_iff.mp hget
      rw [hnode, Option.bind_eq_bind, Option.bind_some]
      split_ifs at hget ⊢ with hkey
      · exact hget
      · exact ih hget (Nat.le_of_succ_le_succ hle)

theorem Represents.gets_iff {r : Bool × V} (hr : m.Represents ptrs u) :
    m.Gets key value r ↔ r = answer value (u.get key) := by
  have hget : ∀ fuel, (ptrs (hash key)).length < fuel →
      m.get fuel key value = some (answer value (u.get key)) :=
    fun fuel hfuel => (getFrom_eq (hr.linked _) (hr.entries _) hfuel).trans
      (by unfold answer UnorderedMap.get; rfl)
  constructor
  · rintro ⟨fuel, hfuel⟩
    have hmono := getFrom_mono hfuel (Nat.le_max_left fuel ((ptrs (hash key)).length + 1))
    exact Option.some.inj (hmono.symm.trans (hget _ (Nat.le_max_right ..)))
  · rintro rfl
    exact ⟨_, hget _ (Nat.lt_succ_self _)⟩

theorem Represents.step {e : Event K V} (hr : m.Represents ptrs u) (hu : u.Bucketed)
    (hs : Step m e m') :
    ∃ ptrs' u', m'.Represents ptrs' u' ∧ u'.Bucketed ∧
      ∀ k past, u.get k = stored k past → u'.get k = stored k (e :: past) := by
  cases e with
  | put key value p =>
    obtain ⟨hp, fuel, hput⟩ := hs
    obtain ⟨m₁, ptrs', ⟨n, hn⟩, hr'⟩ := hr.put key value hp
    have hmono := put_mono hput (Nat.le_max_left fuel n)
    obtain rfl : m₁ = m' := Option.some.inj ((hn _ (Nat.le_max_right fuel n)).symm.trans hmono)
    refine ⟨ptrs', _, hr', hu.put key value, fun k past hk => ?_⟩
    rw [UnorderedMap.get_put, stored, hk]
  | get key value result =>
    obtain ⟨-, rfl⟩ := hs
    exact ⟨ptrs, u, hr, hu, fun k past hk => hk⟩
  | remove key =>
    obtain ⟨fuel, hrem⟩ := hs
    obtain ⟨m₁, ptrs', ⟨n, hn⟩, hr'⟩ := hr.remove key
    have hmono := remove_mono hrem (Nat.le_max_left fuel n)
    obtain rfl : m₁ = m' := Option.some.inj ((hn _ (Nat.le_max_right fuel n)).symm.trans hmono)
    refine ⟨ptrs', _, hr', hu.remove key, fun k past hk => ?_⟩
    rw [UnorderedMap.get_remove, stored, hk]

theorem Represents.isMap {past : List (Event K V)} (hr : m.Represents ptrs u) (hu : u.Bucketed)
    (hpast : ∀ k, u.get k = stored k past) : m.IsMap fun k => stored k past where
  gets key value result := by rw [hr.gets_iff, hpast]
  chains i := ⟨ptrs i, u.table i, hr.linked i, hr.entries i, u.nodup i, hu i⟩
  puts key value p hp := by
    obtain ⟨m', -, ⟨n, hn⟩, -⟩ := hr.put key value hp
    exact ⟨m', hp, n, hn n le_rfl⟩
  removes key := by
    obtain ⟨m', -, ⟨n, hn⟩, -⟩ := hr.remove key
    exact ⟨m', n, hn n le_rfl⟩
  frame e m' hs key hkey value result := by
    obtain ⟨ptrs', u', hr', -, hget⟩ := hr.step hu hs
    rw [hr.gets_iff, hr'.gets_iff, hget key past (hpast key), hpast]
    cases e with
    | put k v p => rw [stored, if_neg (show key ≠ k from hkey)]
    | get => rfl
    | remove k => rw [stored, if_neg (show key ≠ k from hkey)]

omit [DecidableEq K] in
theorem represents_empty (heap : NodePtr → Option (HashNode K V)) :
    Represents { nodes := heap } (fun _ => []) (UnorderedMap.empty : UnorderedMap K V hash) :=
  ⟨fun _ => rfl, fun _ => rfl, fun _ => List.nodup_nil, fun _ _ _ => List.disjoint_nil_left _⟩

theorem run_represents {heap : NodePtr → Option (HashNode K V)} {es : List (Event K V)}
    (hrun : Run Step ({ nodes := heap } : HashTable K V hash) es m) :
    ∃ ptrs u, m.Represents ptrs u ∧ u.Bucketed ∧ ∀ k, u.get k = stored k es.reverse := by
  refine hrun.history (I :=
    fun es m => ∃ ptrs u, Represents m ptrs u ∧ u.Bucketed ∧ ∀ k, u.get k = stored k es.reverse)
    ⟨_, _, represents_empty heap, UnorderedMap.bucketed_empty, fun _ => rfl⟩ ?_
  rintro es m e m' ⟨ptrs, u, hr, hu, hget⟩ hs
  obtain ⟨ptrs', u', hr', hu', hget'⟩ := hr.step hu hs
  refine ⟨ptrs', u', hr', hu', fun k => ?_⟩
  rw [List.reverse_append]
  exact hget' k es.reverse (hget k)

end

section
variable {V : Type} {heap : NodePtr → Option (HashNode (BitVec 32) V)} {es : List (Event (BitVec 32) V)}
  {m : HashTable (BitVec 32) V (keyHash 10)}

/-- After any calls on an empty `unordered_map<int, V>` it is the finite map of
the values last put, in the ten chains of its table. -/
theorem run_isMap (hrun : Run Step { nodes := heap } es m) :
    m.IsMap (fun key => stored key es.reverse) ∧ ∀ i, 10 ≤ i → m.table i = none := by
  obtain ⟨ptrs, u, hr, hu, hget⟩ := run_represents hrun
  refine ⟨hr.isMap hu hget, fun i hi => ?_⟩
  have hnil : u.table i = [] := by
    refine List.eq_nil_iff_forall_not_mem.mpr fun node hnode => ?_
    have hlt := keyHash_lt (by decide : 0 < 10) node.1
    rw [hu i node hnode] at hlt
    omega
  have hptrs : ptrs i = [] := List.map_eq_nil_iff.mp ((hr.entries i).trans (by rw [hnil]; rfl))
  have hlink := hr.linked i
  rw [hptrs] at hlink
  exact hlink

theorem run_isMap_minusOne :
    ∃ m : HashTable (BitVec 32) Bool (keyHash 10),
      Run Step { nodes := fun _ => none } [.put (-1) true 8, .put 5 false 16, .remove (-1)] m ∧
        m.Gets 5 true (true, false) ∧ m.Gets (-1) true (false, true) := by
  have hrun : ∃ m : HashTable (BitVec 32) Bool (keyHash 10),
      Run Step { nodes := fun _ => none } [.put (-1) true 8, .put 5 false 16, .remove (-1)] m := by
    exact ⟨_, .cons ⟨rfl, 1, rfl⟩ (.cons ⟨rfl, 2, rfl⟩ (.single ⟨1, rfl⟩))⟩
  obtain ⟨m, hrun⟩ := hrun
  have hmap := (run_isMap hrun).1
  exact ⟨m, hrun, (hmap.gets 5 true _).mpr rfl, (hmap.gets (-1) true _).mpr rfl⟩

end

end HashTable

end LimineOS
