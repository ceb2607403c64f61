import LimineOS.Lib.Fuel
import LimineOS.Lib.LinkedList
import Mathlib.Data.List.Forall2

/-!
# The linked vector

A client pushes elements, takes references and writes through those that it
holds. The vector is a list of elements for it, and a reference stays with the
element at its index.
-/

namespace LimineOS

open LinkedList Fueled

namespace Doubly

abbrev NodePtr := Nat

structure Node (T : Type) where
  key : T
  next : Option NodePtr := none
  prev : Option NodePtr := none

structure Vector (T : Type) where
  head : Option NodePtr := none
  count : BitVec 32 := 0
  nodes : NodePtr → Option (Node T) := fun _ => none

namespace Vector

section
variable {T : Type}

def setNode (v : Vector T) (p : NodePtr) (node : Node T) : Vector T :=
  { v with nodes := Function.update v.nodes p (some node) }

def modifyNode (v : Vector T) (p : NodePtr) (f : Node T → Node T) : Fueled (Vector T) :=
  ofOption ((v.nodes p).map fun node => v.setNode p (f node))

def advance (v : Vector T) (pt : NodePtr) : Fueled (NodePtr ⊕ NodePtr) := do
  let node ← ofOption (v.nodes pt)
  match node.next with
  | some next => pure (.inl next)
  | none => pure (.inr pt)

def last (v : Vector T) (pt : NodePtr) : Fueled NodePtr := iterateM v.advance pt

/-- `N` and `pt` are the blocks that `new` returns. That of `pt` is never used. -/
def push_back (v : Vector T) (data : T) (N pt : NodePtr) : Fueled (Vector T) := do
  let v := { v with count := v.count + 1 }
  let v := v.setNode N { key := data }
  let v := v.setNode pt { key := data }
  match v.head with
  | none => pure { v with head := some N }
  | some head =>
    let pt ← v.last head
    let v ← v.modifyNode pt fun node => { node with next := some N }
    v.modifyNode N fun node => { node with prev := some pt, next := none }

def walk (v : Vector T) : Nat → Option NodePtr → Option (Option NodePtr)
  | 0, ret => some ret
  | _ + 1, none => some none
  | index + 1, some ret => do
    let node ← v.nodes ret
    v.walk index node.next

/-- `operator[]`. A reference is the node whose key it refers to. -/
def subscript (v : Vector T) (index : Nat) : Option NodePtr := do
  let ret ← ← v.walk index v.head
  let _ ← v.nodes ret
  some ret

def size (v : Vector T) : BitVec 64 := v.count.signExtend 64

def key (v : Vector T) (p : NodePtr) : Option T := (v.nodes p).map Node.key
def next (v : Vector T) (p : NodePtr) : Option NodePtr := (v.nodes p).bind Node.next
def prev (v : Vector T) (p : NodePtr) : Option NodePtr := (v.nodes p).bind Node.prev

structure Represents (v : Vector T) (nodes : List NodePtr) (elems : List T) : Prop where
  linked : Linked v.next v.head nodes
  backward : Linked v.prev nodes.getLast? nodes.reverse
  keys : nodes.map v.key = elems.map some
  nodup : nodes.Nodup
  count : v.count = BitVec.ofNat 32 elems.length

variable {v v' : Vector T} {nodes A : List NodePtr} {elems : List T} {p q c N pt : NodePtr}
  {h : Option NodePtr}
  {node : Node T} {data value : T} {i : Nat}

@[simp] theorem setNode_head : (v.setNode p node).head = v.head := rfl
@[simp] theorem setNode_self : (v.setNode p node).nodes p = some node := Function.update_self ..

theorem setNode_of_ne (hq : q ≠ p) : (v.setNode p node).nodes q = v.nodes q :=
  Function.update_of_ne hq ..

theorem next_congr (hq : v'.nodes q = v.nodes q) : v'.next q = v.next q :=
  congrArg (Option.bind · Node.next) hq

theorem prev_congr (hq : v'.nodes q = v.nodes q) : v'.prev q = v.prev q :=
  congrArg (Option.bind · Node.prev) hq

theorem key_congr (hq : v'.nodes q = v.nodes q) : v'.key q = v.key q :=
  congrArg (Option.map Node.key) hq

theorem Represents.allocated (hv : Represents v nodes elems) (hp : p ∈ nodes) :
    ∃ node, v.nodes p = some node := by
  have hkey : v.key p ∈ elems.map some := hv.keys ▸ List.mem_map_of_mem hp
  obtain ⟨data, -, hdata⟩ := List.mem_map.mp hkey
  obtain ⟨node, hnode, -⟩ := Option.map_eq_some_iff.mp hdata.symm
  exact ⟨node, hnode⟩

theorem Represents.length (hv : Represents v nodes elems) : nodes.length = elems.length := by
  simpa using congrArg List.length hv.keys

-- ---------------------------------------------------------------------------
-- `push_back`
-- ---------------------------------------------------------------------------

theorem last_ends (hl : Linked v.next (some pt) (A ++ [c]))
    (halloc : ∀ p ∈ A ++ [c], ∃ node, v.nodes p = some node) :
    Ends (v.last pt) fun p => c = p := by
  induction A generalizing pt with
  | nil =>
    obtain ⟨⟨⟩, hlast⟩ := hl
    obtain ⟨node, hnode⟩ := halloc c (by simp)
    have hnext : v.next c = none := hlast
    rw [next, hnode, Option.bind_some] at hnext
    refine Ends.iterateM (R := fun r => r = .inr c) ?_ ?_
    · refine (ends_ofOption hnode rfl).bind (P := Eq node) ?_
      rintro _ rfl
      rw [hnext]
      exact ends_pure rfl
    · rintro _ rfl
      rfl
  | cons a A ih =>
    obtain ⟨⟨⟩, hrest⟩ := hl
    obtain ⟨node, hnode⟩ := halloc a (by simp)
    obtain ⟨b, hb⟩ : ∃ b, v.next a = some b := by
      rw [hrest.head]
      cases A <;> exact ⟨_, rfl⟩
    have hnext : node.next = some b := by
      rwa [next, hnode, Option.bind_some] at hb
    refine Ends.iterateM (R := fun r => r = .inl b) ?_ ?_
    · refine (ends_ofOption hnode rfl).bind (P := Eq node) ?_
      rintro _ rfl
      rw [hnext]
      exact ends_pure rfl
    · rintro _ rfl
      exact ih (hb ▸ hrest) fun p hp => halloc p (List.mem_cons_of_mem _ hp)

theorem Represents.snoc (hv : Represents v (A ++ [c]) elems) (hfresh : N ∉ A ++ [c])
    (hhead : v'.head = v.head)
    (hcount : v'.count = v.count + 1) (hN : v'.nodes N = some { key := data, prev := some c })
    (hc : v'.nodes c = (v.nodes c).map fun node => { node with next := some N })
    (hsame : ∀ p ∈ A, v'.nodes p = v.nodes p) :
    Represents v' (A ++ [c] ++ [N]) (elems ++ [data]) := by
  have hcA : c ∉ A := fun hmem =>
    List.disjoint_of_nodup_append hv.nodup hmem (List.mem_singleton_self c)
  obtain ⟨node, hnode⟩ := hv.allocated (p := c) (by simp)
  rw [hnode, Option.map_some] at hc
  have hprev : v'.prev c = v.prev c := by rw [prev, prev, hc, hnode]; rfl
  have hkey : v'.key c = v.key c := by rw [key, key, hc, hnode]; rfl
  have hprevs : ∀ p ∈ A ++ [c], v'.prev p = v.prev p := by
    rintro p hp
    rcases List.mem_append.mp hp with hp | hp
    · exact prev_congr (hsame p hp)
    · rw [List.mem_singleton.mp hp, hprev]
  have hkeys : ∀ p ∈ A ++ [c], v'.key p = v.key p := by
    rintro p hp
    rcases List.mem_append.mp hp with hp | hp
    · exact key_congr (hsame p hp)
    · rw [List.mem_singleton.mp hp, hkey]
  constructor
  · rw [hhead]
    exact hv.linked.snoc hfresh hcA (by rw [next, hc]; rfl) (by rw [next, hN]; rfl) fun p hp =>
      next_congr (hsame p hp)
  · rw [List.reverse_append]
    refine ⟨by simp, ?_⟩
    have hback := hv.backward
    rw [List.getLast?_append, List.getLast?_singleton, Option.some_or] at hback
    rw [prev, hN]
    exact hback.congr fun p hp => hprevs p (List.mem_reverse.mp hp)
  · rw [List.map_append, List.map_congr_left hkeys, hv.keys, List.map_append, List.map_singleton,
      List.map_singleton, key, hN]
    rfl
  · rw [List.nodup_append]
    refine ⟨hv.nodup, List.nodup_singleton N, ?_⟩
    rintro p hp q hq rfl
    exact hfresh (List.mem_singleton.mp hq ▸ hp)
  · rw [hcount, hv.count, List.length_append, List.length_singleton, BitVec.ofNat_add]
    rfl

theorem modifyNode_ends {f : Node T → Node T} (hp : v.nodes p = some node) :
    Ends (v.modifyNode p f) fun v' => v' = v.setNode p (f node) :=
  ends_ofOption (congrArg _ hp) rfl

def withNew (v : Vector T) (data : T) (N pt : NodePtr) : Vector T :=
  (setNode { v with count := v.count + 1 } N { key := data }).setNode pt { key := data }

theorem withNew_of_ne (hN : q ≠ N) (hpt : q ≠ pt) : (v.withNew data N pt).nodes q = v.nodes q :=
  (setNode_of_ne hpt).trans (setNode_of_ne hN)

theorem withNew_self (hne : N ≠ pt) : (v.withNew data N pt).nodes N = some { key := data } :=
  (setNode_of_ne hne).trans setNode_self

theorem push_back_of_head {head : NodePtr} (hhead : v.head = some head) :
    v.push_back data N pt = (do
      let pt' ← (v.withNew data N pt).last head
      let v ← (v.withNew data N pt).modifyNode pt' fun node => { node with next := some N }
      v.modifyNode N fun node => { node with prev := some pt', next := none }) := by
  cases v
  cases hhead
  rfl

theorem Represents.fresh (hv : Represents v nodes elems) (hN : v.nodes N = none) : N ∉ nodes := by
  intro hmem
  obtain ⟨node, hnode⟩ := hv.allocated hmem
  exact absurd (hN.symm.trans hnode) (Option.some_ne_none node).symm

theorem push_back_empty (hv : Represents v [] elems) (hne : N ≠ pt) :
    Ends (v.push_back data N pt) fun v' => Represents v' [N] (elems ++ [data]) ∧
      ∀ p, p ≠ N → p ≠ pt → v'.nodes p = v.nodes p := by
  have hhead : v.head = none := hv.linked
  have hnew : (v.withNew data N pt).nodes N = some { key := data } := withNew_self hne
  obtain rfl : elems = [] := List.length_eq_zero_iff.mp hv.length.symm
  rw [push_back]
  simp only [setNode_head, hhead]
  refine ends_pure ⟨⟨⟨rfl, ?_⟩, ⟨rfl, ?_⟩, ?_, List.nodup_singleton N, ?_⟩,
    fun p hpN hppt => withNew_of_ne hpN hppt⟩
  · exact congrArg (Option.bind · Node.next) hnew
  · exact congrArg (Option.bind · Node.prev) hnew
  · exact congrArg (fun node => [Option.map Node.key node]) hnew
  · exact congrArg (· + 1) hv.count

theorem push_back_snoc (hv : Represents v (A ++ [c]) elems) (hN : v.nodes N = none)
    (hpt : v.nodes pt = none) (hne : N ≠ pt) :
    Ends (v.push_back data N pt) fun v' => Represents v' (A ++ [c] ++ [N]) (elems ++ [data]) ∧
      ∀ p, p ≠ N → p ≠ pt → p ∉ A ++ [c] → v'.nodes p = v.nodes p := by
  obtain ⟨head, hhead⟩ : ∃ head, v.head = some head := by
    rw [hv.linked.head]
    cases A <;> exact ⟨_, rfl⟩
  have hneN : ∀ p ∈ A ++ [c], p ≠ N := fun p hp => ne_of_mem_of_not_mem hp (hv.fresh hN)
  have hsame : ∀ p ∈ A ++ [c], (v.withNew data N pt).nodes p = v.nodes p := fun p hp =>
    withNew_of_ne (hneN p hp) (ne_of_mem_of_not_mem hp (hv.fresh hpt))
  have hcA : c ∉ A := fun hmem =>
    List.disjoint_of_nodup_append hv.nodup hmem (List.mem_singleton_self c)
  have hNc : c ≠ N := hneN c (by simp)
  obtain ⟨node, hnode⟩ := hv.allocated (p := c) (by simp)
  have hc : (v.withNew data N pt).nodes c = some node := (hsame c (by simp)).trans hnode
  have hlinked : Linked (v.withNew data N pt).next (some head) (A ++ [c]) :=
    hhead ▸ hv.linked.congr fun p hp => next_congr (hsame p hp)
  rw [push_back_of_head hhead]
  refine (last_ends hlinked fun p hp => ?_).bind ?_
  · rw [hsame p hp]
    exact hv.allocated hp
  rintro _ rfl
  refine (modifyNode_ends hc).bind ?_
  rintro _ rfl
  refine (modifyNode_ends ((setNode_of_ne hNc.symm).trans (withNew_self hne))).mono ?_
  rintro _ rfl
  constructor
  · refine hv.snoc (hv.fresh hN) rfl rfl setNode_self ?_ fun p hp => ?_
    · rw [setNode_of_ne hNc, setNode_self, hnode]
      rfl
    · rw [setNode_of_ne (hneN p (by simp [hp])), setNode_of_ne (ne_of_mem_of_not_mem hp hcA),
        hsame p (by simp [hp])]
  · intro p hpN hppt hp
    have hpc : p ≠ c := fun h => hp (by simp [h])
    rw [setNode_of_ne hpN, setNode_of_ne hpc, withNew_of_ne hpN hppt]

theorem push_back_ends (hv : Represents v nodes elems) (hN : v.nodes N = none)
    (hpt : v.nodes pt = none) (hne : N ≠ pt) :
    Ends (v.push_back data N pt) fun v' => Represents v' (nodes ++ [N]) (elems ++ [data]) ∧
      ∀ p, p ≠ N → p ≠ pt → p ∉ nodes → v'.nodes p = v.nodes p := by
  obtain rfl | ⟨A, c, rfl⟩ := List.eq_nil_or_concat' nodes
  · exact (push_back_empty hv hne).mono fun v' h => ⟨h.1, fun p hpN hppt _ => h.2 p hpN hppt⟩
  · exact push_back_snoc hv hN hpt hne

-- ---------------------------------------------------------------------------
-- `operator[]` and references
-- ---------------------------------------------------------------------------

theorem walk_eq (hl : Linked v.next h nodes) (halloc : ∀ p ∈ nodes, ∃ node, v.nodes p = some node)
    (hi : i ≤ nodes.length) :
    v.walk i h = some nodes[i]? := by
  induction i generalizing h nodes with
  | zero => rw [walk, hl.head, List.head?_eq_getElem?]
  | succ i ih =>
    cases nodes with
    | nil => exact absurd hi (by simp)
    | cons a nodes =>
      obtain ⟨rfl, hrest⟩ := hl
      obtain ⟨node, hnode⟩ := halloc a (by simp)
      have hnext : v.next a = node.next := by rw [next, hnode, Option.bind_some]
      rw [walk, hnode, List.getElem?_cons_succ]
      exact ih (hnext ▸ hrest) (fun p hp => halloc p (by simp [hp])) (Nat.le_of_succ_le_succ hi)

theorem Represents.subscript (hv : Represents v nodes elems) (hi : i < elems.length) :
    v.subscript i = nodes[i]? := by
  have hlt : i < nodes.length := hv.length.symm ▸ hi
  obtain ⟨node, hnode⟩ := hv.allocated (List.getElem_mem hlt)
  rw [Vector.subscript, walk_eq hv.linked (fun p hp => hv.allocated hp) hlt.le,
    List.getElem?_eq_getElem hlt]
  simp [hnode]

theorem Represents.key (hv : Represents v nodes elems) (hp : nodes[i]? = some p) :
    v.key p = elems[i]? := by
  have hkeys := congrArg (fun l => l[i]?) hv.keys
  simp only [List.getElem?_map, hp, Option.map_some] at hkeys
  cases helem : elems[i]? with
  | none => simp [helem] at hkeys
  | some data => simpa [helem] using hkeys

theorem Represents.assign (hv : Represents v nodes elems) (hp : nodes[i]? = some p)
    (hnode : v.nodes p = some node) :
    Represents (v.setNode p { node with key := value }) nodes (elems.set i value) := by
  have hnext : (v.setNode p { node with key := value }).next = v.next := by
    funext q
    by_cases hq : q = p
    · rw [hq, next, next, setNode_self, hnode]
      rfl
    · exact next_congr (setNode_of_ne hq)
  have hprev : (v.setNode p { node with key := value }).prev = v.prev := by
    funext q
    by_cases hq : q = p
    · rw [hq, prev, prev, setNode_self, hnode]
      rfl
    · exact prev_congr (setNode_of_ne hq)
  have hi : i < nodes.length := (List.getElem?_eq_some_iff.mp hp).1
  refine ⟨hnext ▸ hv.linked, hprev ▸ hv.backward, ?_, hv.nodup, by rw [List.length_set]; exact hv.count⟩
  refine List.ext_getElem? fun j => ?_
  rw [List.getElem?_map, List.getElem?_map, List.getElem?_set, ← hv.length, if_pos hi]
  by_cases hj : i = j
  · subst hj
    rw [if_pos rfl, hp, Option.map_some, Option.map_some, Vector.key, setNode_self]
    rfl
  · have hkeys := congrArg (fun l => l[j]?) hv.keys
    simp only [List.getElem?_map] at hkeys
    rw [if_neg hj, ← hkeys]
    refine Option.map_congr fun q hq => key_congr (setNode_of_ne ?_)
    rintro rfl
    exact hj ((List.getElem?_inj hi hv.nodup).mp (hp.trans hq.symm))

theorem Represents.size (hv : Represents v nodes elems) (hlen : elems.length < 2 ^ 31) :
    v.size.toNat = elems.length := by
  have hcount : v.count.toNat = elems.length := by
    rw [hv.count, BitVec.toNat_ofNat, Nat.mod_eq_of_lt (by omega)]
  have hmsb : v.count.msb = false := by
    rw [BitVec.msb_eq_decide, hcount]
    exact decide_eq_false (by omega)
  rw [Vector.size, BitVec.signExtend_eq_setWidth_of_msb_false hmsb,
    BitVec.toNat_setWidth_of_le (by decide), hcount]

end

end Vector

/-- What a client does. `assign` writes through the `k`-th reference that it has taken. -/
inductive Act (T : Type)
  | push_back (data : T) (N pt : NodePtr)
  | subscript (index : Nat)
  | assign (k : Nat) (value : T)

structure Client (T : Type) where
  v : Vector T := {}
  refs : List NodePtr := []

def Client.step {T : Type} (s : Client T) : Act T → Fueled (Client T)
  | .push_back data N pt => do
    let v ← s.v.push_back data N pt
    pure { s with v }
  | .subscript index => do
    let p ← ofOption (s.v.subscript index)
    pure { s with refs := s.refs ++ [p] }
  | .assign k value => do
    let p ← ofOption s.refs[k]?
    let v ← s.v.modifyNode p fun node => { node with key := value }
    pure { s with v }

/-- The abstract client. Its vector is a list, and its references are indices. -/
structure Elements (T : Type) where
  elems : List T := []
  refs : List Nat := []

def Elements.step {T : Type} (l : Elements T) : Act T → Option (Elements T)
  | .push_back data _ _ => some { l with elems := l.elems ++ [data] }
  | .subscript index =>
    if index < l.elems.length then some { l with refs := l.refs ++ [index] } else none
  | .assign k value => l.refs[k]?.map fun i => { l with elems := l.elems.set i value }

section
variable {T : Type}

def Act.allocated : Act T → List NodePtr
  | .push_back _ N pt => [N, pt]
  | .subscript _ => []
  | .assign _ _ => []

def Act.pushed : Act T → List NodePtr
  | .push_back _ N _ => [N]
  | .subscript _ => []
  | .assign _ _ => []

/-- Index `i` refers to the node of the `i`-th `push_back`, and so do the references to `i`
that the client holds. -/
structure Refines (s : Client T) (l : Elements T) (nodes : List NodePtr) : Prop where
  size : s.v.size.toNat = l.elems.length
  subscript : ∀ i, i < l.elems.length → s.v.subscript i = nodes[i]? ∧
    nodes[i]?.bind s.v.key = l.elems[i]?
  refs : List.Forall₂ (fun p i => i < l.elems.length ∧ nodes[i]? = some p) s.refs l.refs
  linked : Linked s.v.next s.v.head nodes
  nodup : nodes.Nodup
  length : nodes.length = s.v.size.toNat
  inverse : ∀ a ∈ nodes, ∀ b ∈ nodes, s.v.next a = some b ↔ s.v.prev b = some a
  first : s.v.head.bind s.v.prev = none

variable {s s' : Client T} {l l' : Elements T} {nodes nodes' : List NodePtr} {a : Act T}
  {acts : List (Act T)}

structure Holds (s : Client T) (l : Elements T) (nodes : List NodePtr) : Prop where
  represents : s.v.Represents nodes l.elems
  refs : List.Forall₂ (fun p i => nodes[i]? = some p) s.refs l.refs

theorem Holds.index {k i : Nat} (h : Holds s l nodes) (hk : l.refs[k]? = some i) :
    ∃ p, s.refs[k]? = some p ∧ nodes[i]? = some p := by
  obtain ⟨hlt, rfl⟩ := List.getElem?_eq_some_iff.mp hk
  have hlt' : k < s.refs.length := h.refs.length_eq ▸ hlt
  exact ⟨_, List.getElem?_eq_getElem hlt', h.refs.get hlt' hlt⟩

theorem step_ends (h : Holds s l nodes) (hstep : l.step a = some l')
    (hfree : ∀ p ∈ a.allocated, s.v.nodes p = none)
    (hnew : a.allocated.Nodup) :
    Ends (s.step a) fun s' => Holds s' l' (nodes ++ a.pushed) ∧
      ∀ p, s.v.nodes p = none → p ∉ a.allocated → s'.v.nodes p = none := by
  cases a with
  | push_back data N pt =>
    cases hstep
    have hN : s.v.nodes N = none := hfree N (by simp [Act.allocated])
    have hpt : s.v.nodes pt = none := hfree pt (by simp [Act.allocated])
    have hne : N ≠ pt := by simpa [Act.allocated] using hnew
    refine (Vector.push_back_ends h.represents hN hpt hne).bind ?_
    rintro v ⟨hv, hframe⟩
    refine ends_pure ⟨⟨hv, h.refs.imp fun p i hp => ?_⟩, fun p hp halloc => ?_⟩
    · obtain ⟨hlt, -⟩ := List.getElem?_eq_some_iff.mp hp
      rw [List.getElem?_append_left hlt, hp]
    · simp only [Act.allocated, List.mem_cons, List.not_mem_nil, or_false, not_or] at halloc
      rw [hframe p halloc.1 halloc.2 (h.represents.fresh hp), hp]
  | subscript index =>
    simp only [Elements.step, Option.ite_none_right_eq_some, Option.some.injEq] at hstep
    obtain ⟨hindex, rfl⟩ := hstep
    have hlt : index < nodes.length := h.represents.length.symm ▸ hindex
    have hp : nodes[index]? = some nodes[index] := List.getElem?_eq_getElem hlt
    refine (ends_ofOption ((h.represents.subscript hindex).trans hp) rfl).bind (P := Eq nodes[index]) ?_
    rintro _ rfl
    refine ends_pure ⟨⟨?_, ?_⟩, fun p hp _ => hp⟩
    · rw [Act.pushed, List.append_nil]
      exact h.represents
    · rw [Act.pushed, List.append_nil]
      exact List.rel_append h.refs (.cons hp .nil)
  | assign k value =>
    simp only [Elements.step, Option.map_eq_some_iff] at hstep
    obtain ⟨i, hk, rfl⟩ := hstep
    obtain ⟨p, href, hp⟩ := h.index hk
    obtain ⟨node, hnode⟩ := h.represents.allocated (List.mem_of_getElem? hp)
    refine (ends_ofOption href rfl).bind (P := Eq p) ?_
    rintro _ rfl
    refine (Vector.modifyNode_ends hnode).bind ?_
    rintro _ rfl
    rw [Act.pushed, List.append_nil]
    refine ends_pure ⟨⟨h.represents.assign hp hnode, h.refs⟩, fun q hq _ => ?_⟩
    exact (Vector.setNode_of_ne
      (ne_of_mem_of_not_mem (List.mem_of_getElem? hp) (h.represents.fresh hq)).symm).trans hq

theorem holds_run (h : Holds s l nodes) (hrun : acts.foldlM Elements.step l = some l')
    (hfree : ∀ p ∈ acts.flatMap Act.allocated, s.v.nodes p = none)
    (hnew : (acts.flatMap Act.allocated).Nodup) :
    Ends (acts.foldlM Client.step s) fun s' => Holds s' l' (nodes ++ acts.flatMap Act.pushed) := by
  induction acts generalizing s l nodes with
  | nil =>
    cases hrun
    rw [List.flatMap_nil, List.append_nil]
    exact ends_pure h
  | cons a acts ih =>
    rw [List.foldlM_cons] at hrun ⊢
    obtain ⟨m, hstep, hrun⟩ := Option.bind_eq_some_iff.mp hrun
    rw [List.flatMap_cons] at hfree hnew
    obtain ⟨hnewa, hnew, hapart⟩ := List.nodup_append.mp hnew
    refine (step_ends h hstep (fun p hp => hfree p (by simp [hp])) hnewa).bind ?_
    rintro s' ⟨h', hframe⟩
    rw [List.flatMap_cons, ← List.append_assoc]
    refine ih h' hrun (fun p hp => hframe p (hfree p (List.mem_append_right _ hp)) fun hpa => ?_) hnew
    exact hapart p hpa p hp rfl

theorem Holds.refines (h : Holds s l nodes) (hlen : l.elems.length < 2 ^ 31) : Refines s l nodes := by
  have hlength := h.represents.length
  have hsize := h.represents.size hlen
  have hkey : ∀ i < l.elems.length, nodes[i]?.bind s.v.key = l.elems[i]? := by
    intro i hi
    have hp := List.getElem?_eq_getElem (hlength.symm ▸ hi : i < nodes.length)
    rw [hp, Option.bind_some, h.represents.key hp]
  have hfirst : s.v.head.bind s.v.prev = none := by
    have hback := h.represents.backward
    rw [h.represents.linked.head]
    cases nodes with
    | nil => rfl
    | cons a nodes =>
      rw [List.reverse_cons] at hback
      exact hback.next_eq
  exact {
    size := hsize
    subscript := fun i hi => ⟨h.represents.subscript hi, hkey i hi⟩
    refs := h.refs.imp fun p i hp => ⟨hlength ▸ (List.getElem?_eq_some_iff.mp hp).1, hp⟩
    linked := h.represents.linked
    nodup := h.represents.nodup
    length := hlength.trans hsize.symm
    inverse := fun a ha b hb => h.represents.linked.inverse h.represents.backward ha hb
    first := hfirst
  }

theorem run_refines (hnew : (acts.flatMap Act.allocated).Nodup)
    (hrun : acts.foldlM Elements.step {} = some l)
    (hlen : l.elems.length < 2 ^ 31) :
    Ends (acts.foldlM Client.step {}) fun s => Refines s l (acts.flatMap Act.pushed) := by
  have hempty : Holds ({} : Client T) {} [] := ⟨⟨rfl, rfl, rfl, List.nodup_nil, rfl⟩, .nil⟩
  exact (holds_run hempty hrun (fun _ _ => rfl) hnew).mono fun s hs => hs.refines hlen

theorem run_refines_three :
    Ends ([.push_back 'a' 1 2, .subscript 0, .push_back 'b' 3 4, .assign 0 'c'].foldlM Client.step {})
      fun s => Refines s ⟨['c', 'b'], [0]⟩ [1, 3] :=
  run_refines (by decide) rfl (by decide)

-- ---------------------------------------------------------------------------
-- Too many elements for `count`
-- ---------------------------------------------------------------------------

def pushes (n : Nat) : List (Act Unit) := (List.range n).map fun k => .push_back () (2 * k) (2 * k + 1)

theorem pushes_succ {n : Nat} : pushes (n + 1) = pushes n ++ [.push_back () (2 * n) (2 * n + 1)] := by
  rw [pushes, List.range_succ, List.map_append]
  rfl

theorem pushes_allocated {n : Nat} : (pushes n).flatMap Act.allocated = List.range (2 * n) := by
  induction n with
  | zero => rfl
  | succ n ih =>
    rw [pushes_succ, List.flatMap_append, ih, Nat.mul_succ, List.range_succ, List.range_succ,
      List.append_assoc]
    rfl

theorem pushes_elements {n : Nat} :
    (pushes n).foldlM Elements.step {} = some ⟨List.replicate n (), []⟩ := by
  induction n with
  | zero => rfl
  | succ n ih =>
    rw [pushes_succ, List.foldlM_append, ih, List.replicate_succ']
    rfl

theorem pushes_not_refines :
    ((pushes (2 ^ 31)).flatMap Act.allocated).Nodup ∧
      (pushes (2 ^ 31)).foldlM Elements.step {} = some ⟨List.replicate (2 ^ 31) (), []⟩ ∧
      ¬Ends ((pushes (2 ^ 31)).foldlM Client.step {})
        fun s => Refines s ⟨List.replicate (2 ^ 31) (), []⟩ ((pushes (2 ^ 31)).flatMap Act.pushed) := by
  have hnew : ((pushes (2 ^ 31)).flatMap Act.allocated).Nodup := by
    rw [pushes_allocated]
    exact List.nodup_range
  have hempty : Holds ({} : Client Unit) {} [] := ⟨⟨rfl, rfl, rfl, List.nodup_nil, rfl⟩, .nil⟩
  refine ⟨hnew, pushes_elements, fun hends => ?_⟩
  have hholds := holds_run hempty pushes_elements (fun _ _ => rfl) hnew
  obtain ⟨_, s, ⟨hrefines, hs⟩, -⟩ := hends.and hholds
  have hsize := hrefines.size
  rw [Vector.size, hs.represents.count, List.length_replicate] at hsize
  exact absurd hsize (by decide)

end

end Doubly

end LimineOS
