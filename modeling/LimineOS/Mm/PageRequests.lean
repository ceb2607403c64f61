import LimineOS.Mm.Space

/-!
# Requests for pages

Which pages `alloc` finds is decided by the bits and the cursor alone (`Alike`).
Code that only allocates and writes outside the bitmap therefore comes to its
end exactly when the allocator, asked for the same numbers of pages with
nothing in between, finds them all (`Asks.isSome_iff`). What `MapPage` asks for
can be told from the addresses that are mapped (`Charted`).
-/

namespace LimineOS

open ByteMemory TableTree

namespace PhysicalMemory

def allocs (s : PhysicalMemory) (ns : List Nat) : Option PhysicalMemory :=
  ns.foldlM (fun s n => (s.alloc n).map Prod.snd) s

structure Alike (s a : PhysicalMemory) : Prop where
  bitmap : a.bitmap = s.bitmap
  highestAddr : a.highestAddr = s.highestAddr
  lastI : a.lastI = s.lastI
  bits : ∀ j < s.limit, s.bitmap.get a.ram j = s.bitmap.get s.ram j

/-- `x` is what comes of code that asks for these numbers of pages. -/
def Asks {α : Type} (s : PhysicalMemory) (ns : List Nat) (x : Option α)
    (state : α → PhysicalMemory) : Prop :=
  ∀ a, Alike s a → Option.Rel (fun r a' => Alike (state r) a') x (a.allocs ns)

section
variable {own : Set Nat} {s s' a : PhysicalMemory} {n p count lim left lastI : Nat}
  {ns ms : List Nat} {ram ram' : Mem}

theorem allocs_append : s.allocs (ns ++ ms) = (s.allocs ns).bind fun s => s.allocs ms :=
  List.foldlM_append ..

theorem allocs_cons : s.allocs (n :: ns) = (s.alloc n).bind fun r => r.2.allocs ns := by
  rw [allocs, List.foldlM_cons]
  cases s.alloc n with
  | none => rfl
  | some r => rfl

theorem Alike.refl : Alike s s := ⟨rfl, rfl, rfl, fun _ _ => rfl⟩

theorem Alike.limit (h : Alike s a) :
    a.limit = s.limit := by rw [PhysicalMemory.limit, PhysicalMemory.limit, h.highestAddr]

theorem Alike.sane (h : Alike s a) (hs : Sane own s) : Sane own a where
  bitmap := by rw [h.bitmap, h.limit, hs.bitmap]
  inSpace := by rw [h.highestAddr]; exact hs.inSpace
  cursor := by rw [h.lastI, h.limit]; exact hs.cursor
  apart x hx := by
    obtain ⟨hlt, hclear⟩ := hx
    rw [h.limit] at hlt
    rw [h.bitmap, h.bits _ hlt] at hclear
    exact hs.apart x ⟨hlt, hclear⟩

theorem Alike.write (h : Alike s a) (hs : Sane own s) (hram : ∀ x ∈ own, ram x = s.ram x) :
    Alike { s with ram } a := by
  refine ⟨h.bitmap, h.highestAddr, h.lastI, fun j hj => ?_⟩
  have hon : Set.EqOn ram s.ram (s.bitmap.bytes s.limit) := fun x hx => hram x (hs.bitmap ▸ hx)
  exact (h.bits j hj).trans (Bitmap.get_congr hon hj).symm

theorem scan_congr {b : Bitmap} (h : ∀ j, lastI ≤ j → j < lastI + left → b.get ram' j = b.get ram j) :
    scan b ram' count left lastI p = scan b ram count left lastI p := by
  induction left generalizing lastI p with
  | zero => rfl
  | succ left ih =>
    have hrest : ∀ j, lastI + 1 ≤ j → j < lastI + 1 + left → b.get ram' j = b.get ram j :=
      fun j hle hlt =>
      h j (by omega) (by omega)
    rw [scan, scan, h lastI (le_refl _) (by omega), ih hrest, ih hrest]

theorem Alike.innerAlloc (h : Alike s a) (hlim : lim ≤ s.limit) :
    (a.innerAlloc count lim).1 = (s.innerAlloc count lim).1 ∧
      Alike (s.innerAlloc count lim).2 (a.innerAlloc count lim).2 := by
  have hscan : scan a.bitmap a.ram count (lim - a.lastI) a.lastI 0 =
      scan s.bitmap s.ram count (lim - s.lastI) s.lastI 0 := by
    rw [h.bitmap, h.lastI]
    exact scan_congr fun j hle hlt => h.bits j (by omega)
  unfold PhysicalMemory.innerAlloc
  rw [hscan]
  rcases scan s.bitmap s.ram count (lim - s.lastI) s.lastI 0 with ⟨- | page, cursor⟩
  · exact ⟨rfl, h.bitmap, h.highestAddr, rfl, h.bits⟩
  · refine ⟨rfl, h.bitmap, h.highestAddr, rfl, fun j hj => ?_⟩
    show s.bitmap.get (a.bitmap.setRange a.ram page count true) j =
      s.bitmap.get (s.bitmap.setRange s.ram page count true) j
    rw [h.bitmap, Bitmap.get_setRange, Bitmap.get_setRange, h.bits j hj]

theorem innerAlloc_highestAddr : (s.innerAlloc count lim).2.highestAddr = s.highestAddr := by
  unfold innerAlloc
  split <;> rfl

theorem Alike.alloc_fst (h : Alike s a) (hs : Sane own s) :
    (a.alloc n).map Prod.fst = (s.alloc n).map Prod.fst := by
  have hcursor := hs.cursor
  obtain ⟨hret₁, h₁⟩ := @Alike.innerAlloc s a n s.limit h (le_refl _)
  have hhigh := @innerAlloc_highestAddr s n s.limit
  simp only [PhysicalMemory.alloc, h.highestAddr, h.lastI]
  change (a.innerAlloc n (s.highestAddr / 0x1000)).1 = (s.innerAlloc n (s.highestAddr / 0x1000)).1
    at hret₁
  change Alike (s.innerAlloc n (s.highestAddr / 0x1000)).2
    (a.innerAlloc n (s.highestAddr / 0x1000)).2 at h₁
  change (s.innerAlloc n (s.highestAddr / 0x1000)).2.highestAddr = s.highestAddr at hhigh
  generalize s.innerAlloc n (s.highestAddr / 0x1000) = r,
    a.innerAlloc n (s.highestAddr / 0x1000) = r' at hret₁ h₁ hhigh ⊢
  obtain ⟨ret₁, s₁⟩ := r
  obtain ⟨ret₁', a₁⟩ := r'
  obtain rfl : ret₁' = ret₁ := hret₁
  dsimp only at h₁ hhigh ⊢
  split
  · -- nothing above the cursor, so the pages below it are looked at
    have hback : Alike { s₁ with lastI := 0 } { a₁ with lastI := 0 } :=
      ⟨h₁.bitmap, h₁.highestAddr, rfl, h₁.bits⟩
    have hlim : s.lastI ≤ s₁.limit := by
      rw [PhysicalMemory.limit, hhigh]
      exact hcursor
    obtain ⟨hret₂, -⟩ := @Alike.innerAlloc _ _ n s.lastI hback hlim
    rw [hret₂]
    split <;> rfl
  · rfl

/-- Of two that are alike `alloc` takes the same pages, and they stay alike. -/
theorem Alike.alloc (h : Alike s a) (hs : Sane own s) (hn : 1 ≤ n) (halloc : s.alloc n = some (p, s')) :
    ∃ a', a.alloc n = some (p, a') ∧ Alike s' a' := by
  have hfst := h.alloc_fst (n := n) hs
  rw [halloc, Option.map_some] at hfst
  obtain ⟨⟨p', a'⟩, halloc', rfl⟩ := Option.map_eq_some_iff.mp hfst
  obtain ⟨page, hp, -, -, hm⟩ := hs.marked hn halloc
  obtain ⟨page', hp', -, -, hm'⟩ := (h.sane hs).marked hn halloc'
  obtain rfl : page' = page := by
    dsimp only at hp
    omega
  refine ⟨a', halloc', ?_, ?_, ?_, fun j hj => ?_⟩
  · rw [hm'.bitmap, hm.bitmap, h.bitmap]
  · rw [hm'.highestAddr, hm.highestAddr, h.highestAddr]
  · rw [hm'.lastI, hm.lastI]
  · have hlt : j < s.limit := by rwa [PhysicalMemory.limit, hm.highestAddr] at hj
    have hbits := hm'.bits j (by rwa [h.limit])
    rw [h.bitmap, h.bits j hlt] at hbits
    rw [hm.bitmap, hm.bits j hlt, hbits]

theorem Alike.alloc_none (h : Alike s a) (hs : Sane own s) (halloc : s.alloc n = none) :
    a.alloc n = none := by
  have hfst := h.alloc_fst (n := n) hs
  rw [halloc, Option.map_none] at hfst
  exact Option.map_eq_none_iff.mp hfst

end

-- ---------------------------------------------------------------------------
-- Code that asks
-- ---------------------------------------------------------------------------

section
variable {α β : Type} {own : Set Nat} {s : PhysicalMemory} {n : Nat} {ns ms : List Nat} {x : Option α}
  {state : α → PhysicalMemory} {state' : β → PhysicalMemory} {f : α → Option β} {g : α → β} {r : α}

theorem Asks.isSome_iff (h : Asks s ns x state) : x.isSome ↔ (s.allocs ns).isSome := by
  have hx := h s .refl
  generalize s.allocs ns = y at hx ⊢
  cases hx with
  | some h => exact iff_of_true rfl rfl
  | none => exact Iff.rfl

theorem Asks.alloc (hs : Sane own s) (hn : 1 ≤ n) : Asks s [n] (s.alloc n) Prod.snd := by
  intro a ha
  have hone : a.allocs [n] = (a.alloc n).bind fun r => some r.2 := allocs_cons
  rw [hone]
  cases halloc : s.alloc n with
  | none =>
    rw [ha.alloc_none hs halloc]
    exact .none
  | some r =>
    obtain ⟨a', halloc', halike⟩ := ha.alloc hs hn halloc
    rw [halloc']
    exact .some halike

theorem Asks.pure (h : ∀ a, Alike s a → Alike (state r) a) : Asks s [] (some r) state :=
  fun a ha => .some (h a ha)

theorem Asks.write {ram : Mem} (hs : Sane own s) (hram : ∀ x ∈ own, ram x = s.ram x)
    (h : Asks { s with ram } ns x state) : Asks s ns x state := fun a ha => h a (ha.write hs hram)

theorem Asks.fill {s' : PhysicalMemory} {p k : Nat} (hal : Allocated own s s' p n) (hs : Sane own s)
    (hk : k ≤ 4096 * n) (h : Asks { s' with ram := memset s'.ram p 0 k } ns x state) :
    Asks s' ns x state := by
  refine h.write hal.sane fun x hx => memset_eqOn s'.ram p 0 k fun hx' => ?_
  exact hs.apart x (hal.free x (span_subset (le_refl p) (by omega) hx')) hx

theorem Asks.bind (h : Asks s ns x state) (hf : ∀ r, x = some r → Asks (state r) ms (f r) state') :
    Asks s (ns ++ ms) (x.bind f) state' := by
  intro a ha
  rw [allocs_append]
  have hx := h a ha
  cases hr : x with
  | none =>
    rw [hr] at hx
    cases hall : a.allocs ns with
    | none => exact .none
    | some a' =>
      rw [hall] at hx
      cases hx
  | some r =>
    rw [hr] at hx
    cases hall : a.allocs ns with
    | none =>
      rw [hall] at hx
      cases hx
    | some a' =>
      rw [hall] at hx
      cases hx with
      | some halike => exact hf r hr a' halike

theorem Asks.map (h : Asks s ns x state)
    (hg : ∀ r, x = some r → ∀ a, Alike (state r) a → Alike (state' (g r)) a) :
    Asks s ns (x.map g) state' := by
  have hbind : Asks s (ns ++ []) (x.bind fun r => some (g r)) state' :=
    h.bind fun r hr => .pure (hg r hr)
  rw [List.append_nil] at hbind
  rw [Option.map_eq_bind]
  exact hbind

end

end PhysicalMemory

namespace VirtualMemory

open PhysicalMemory

-- ---------------------------------------------------------------------------
-- Where the tables are
-- ---------------------------------------------------------------------------

def tablePath (v : BitVec 64) : List (Fin 512) := [pml4index v, dirptrindex v, dirindex v]

/-- The tables that `MapPage` takes for a page when those for the pages `seen` are
there: one for each start of its path that is none of theirs. -/
def newTables (seen : List (BitVec 64)) (v : BitVec 64) : Nat :=
  ((tablePath v).inits.tail.filter fun q => ∀ u ∈ seen, ¬q <+: tablePath u).length

def tableRequests : List (BitVec 64) → List (BitVec 64) → List Nat
  | _, [] => []
  | seen, v :: vs => List.replicate (newTables seen v) 1 ++ tableRequests (v :: seen) vs

def Charted (ram : Mem) (root : Nat) (seen : List (BitVec 64)) : Prop :=
  ∀ q : List (Fin 512), q.length ≤ 3 →
    ((descend next (entry ram) root q).isSome ↔ q = [] ∨ ∃ u ∈ seen, q <+: tablePath u)

structure Level (own : Set Nat) (root : Nat) (used : List Nat) (s : PhysicalMemory)
    (place : Nat → Option (Nat × List (Fin 512))) (a : Nat) (p : List (Fin 512)) : Prop where
  sane : Sane own s
  mapped : Mapped [root] used own s place
  nodup : used.Nodup
  held : ∀ x ∈ tables used, s.Held x
  placed : place a = some (root, p)
  reached : descend next (entry s.ram) root p = some a

section
variable {own : Set Nat} {root a child : Nat} {used new : List Nat} {s s' : PhysicalMemory}
  {i : Fin 512}
  {p is q : List (Fin 512)} {place : Nat → Option (Nat × List (Fin 512))} {v paddr flags : BitVec 64}
  {seen : List (BitVec 64)} {ram : Mem}

theorem Space.level (h : Space own root used s) : ∃ place, Level own root used s place root [] := by
  obtain ⟨place, hm⟩ := h.mapped
  exact ⟨place, h.sane, hm, h.nodup, h.held, hm.root root (List.mem_singleton_self root), rfl⟩

theorem Mapped.next_eq {roots : List Nat} {r : Nat} (hm : Mapped roots used own s place)
    (ha : place a = some (r, p))
    (hp : p.length < 3) (hne : entry s.ram a i ≠ 0) :
    next (entry s.ram a i) = some (entryAddr (entry s.ram a i)) :=
  next_of_perms (hm.interior ha hp hne)

theorem Level.ensure (h : Level own root used s place a p) (hp : p.length < 3)
    (hc : ensureTable s a i = some (s', child, new)) :
    ∃ place', Level own root (used ++ new) s' place' child (p ++ [i]) ∧
      Ensured [root] s s' a i child new place place' ∧
      ∀ q : List (Fin 512), q.length ≤ 3 → ((descend next (entry s'.ram) root q).isSome ↔
        (descend next (entry s.ram) root q).isSome ∨ q = p ++ [i]) := by
  have hm := h.mapped
  have hroot := hm.root root (List.mem_singleton_self root)
  obtain ⟨hs', -, hnodup', hframes, hheld', -⟩ :=
    ensureTable_grow h.sane hm h.nodup h.held ((hm.placed a).mp (by simp [h.placed])) hc
  obtain ⟨place', hm', hplace', hen⟩ := ensureTable_ok hm h.placed hp hc hnodup' hframes
  have hkept : descend next (entry s'.ram) root p = descend next (entry s.ram) root p :=
    hm.placement.descend_apart h.placed hroot hen.same hp.le not_concat_prefix
  have hreached : descend next (entry s'.ram) root (p ++ [i]) = some child := by
    rw [descend_append, hkept, h.reached, Option.bind_some, descend, hen.link]
    rfl
  refine ⟨place', ⟨hs', hm', hnodup', hheld', hplace', hreached⟩, hen, fun q hq => ?_⟩
  rcases hen.taken with ⟨-, rfl, -⟩ | ⟨hzero, -, hzeroes⟩
  · refine (or_iff_left_of_imp ?_).symm
    rintro rfl
    rw [hreached]
    rfl
  · exact hm.placement.descend_link h.placed hroot h.reached (by rw [hzero]; rfl) hen.same hen.link
      (fun j => by rw [hzeroes j]; rfl) hp.le hq

/-- The missing tables on a path are those that no start of it leads to. -/
theorem Mapped.missingTables_eq {roots : List Nat} {r : Nat} (hm : Mapped roots used own s place)
    (ha : place a = some (r, p)) (hlen : p.length + is.length ≤ 3) :
    missingTables s.ram a is =
      (is.inits.tail.filter fun q => (descend next (entry s.ram) a q).isNone).length := by
  induction is generalizing a p with
  | nil => rfl
  | cons i is ih =>
    simp only [List.length_cons] at hlen
    rw [List.inits_cons, List.tail_cons, List.filter_map, List.length_map, missingTables]
    by_cases hzero : entry s.ram a i = 0
    · have hall : ∀ q : List (Fin 512), descend next (entry s.ram) a (i :: q) = none := fun q => by
        rw [descend, hzero]
        rfl
      rw [if_pos hzero, List.filter_eq_self.mpr (fun q _ => by simp [hall]), List.length_inits]
    · have hnext := hm.next_eq ha (by omega) hzero
      have hbelow : ∀ q : List (Fin 512), descend next (entry s.ram) a (i :: q) =
          descend next (entry s.ram) (entryAddr (entry s.ram a i)) q :=
            fun q => by rw [descend, hnext, Option.bind_some]
      have hchild := hm.placement.child ha (by omega) hnext
      rw [if_neg hzero, ih hchild (by simp only [List.length_append, List.length_singleton]; omega)]
      have hinits : is.inits = [] :: is.inits.tail := by cases is <;> rfl
      conv_rhs => rw [hinits]
      simp only [Function.comp_def, hbelow]
      rw [List.filter_cons_of_neg (by simp [descend])]

/-- In a charted space the pages of `seen` say how many tables are missing. -/
theorem Space.missingTables_eq (h : Space own root used s) (hchart : Charted s.ram root seen)
    (v : BitVec 64) :
    missingTables s.ram root (tablePath v) = newTables seen v := by
  obtain ⟨place, hm⟩ := h.mapped
  have hdepth : ([] : List (Fin 512)).length + (tablePath v).length ≤ 3 := by simp [tablePath]
  rw [hm.missingTables_eq (hm.root root (List.mem_singleton_self root)) hdepth, newTables]
  refine congrArg List.length (List.filter_congr fun q hq => ?_)
  obtain ⟨i, q, rfl⟩ : ∃ i q', q = i :: q' := by
    simp only [tablePath, List.inits, List.map_cons, List.map_nil, List.tail_cons, List.mem_cons,
      List.not_mem_nil, or_false] at hq
    rcases hq with rfl | rfl | rfl
    · exact ⟨_, _, rfl⟩
    · exact ⟨_, _, rfl⟩
    · exact ⟨_, _, rfl⟩
  have hlen := ((List.mem_inits _ _).mp (List.mem_of_mem_tail hq)).length_le
  have hsome := hchart (i :: q) hlen
  rw [or_iff_right (List.cons_ne_nil i q)] at hsome
  rw [Bool.eq_iff_iff, Option.isNone_iff_eq_none, ← Option.not_isSome_iff_eq_none, hsome]
  simp

theorem ensureTable_asks {roots : List Nat} (hs : Sane own s) (hm : Mapped roots used own s place)
    (ha : a ∈ used) :
    Asks s (List.replicate (if entry s.ram a i = 0 then 1 else 0) 1) (ensureTable s a i) (·.1) := by
  unfold ensureTable
  split_ifs with hzero
  · refine (Asks.alloc hs (le_refl 1)).map ?_
    rintro ⟨f, s₁⟩ halloc b hb
    have hal := hs.alloc (le_refl 1) halloc
    refine hb.write hal.sane fun x hx => ?_
    have hframe : x ∉ frame f :=
      Set.disjoint_right.mp (isFrame_of_allocated hal hs (le_refl 1)).apart hx
    exact (setEntry_eqOn (Set.disjoint_right.mp (hm.frames a ha).apart hx)).trans
      (memset_eqOn _ _ _ _ hframe)
  · exact .pure fun _ hb => hb

/-- What is left to ask for is what the tables below are short of. -/
theorem Level.asks {α : Type} {f : PhysicalMemory × Nat × List Nat → Option α}
    {state : α → PhysicalMemory}
    (h : Level own root used s place a p) (hp : p.length < 3)
    (hf : ∀ s' child new, ensureTable s a i = some (s', child, new) →
      Asks s' (List.replicate (missingTables s'.ram child is) 1) (f (s', child, new)) state) :
    Asks s (List.replicate (missingTables s.ram a (i :: is)) 1) ((ensureTable s a i).bind f) state := by
  have hle : (if entry s.ram a i = 0 then 1 else 0) ≤ missingTables s.ram a (i :: is) := by
    rw [missingTables]
    split_ifs <;> omega
  rw [← Nat.add_sub_cancel' hle, List.replicate_add]
  refine (ensureTable_asks h.sane h.mapped ((h.mapped.placed a).mp (by simp [h.placed]))).bind ?_
  rintro ⟨s', child, new⟩ hc
  obtain ⟨place', -, hen, -⟩ := h.ensure hp hc
  have htaken : new.length = if entry s.ram a i = 0 then 1 else 0 := by
    rcases hen.taken with ⟨hne, -, rfl⟩ | ⟨hzero, rfl, -⟩
    · rw [if_neg hne, List.length_nil]
    · rw [if_pos hzero, List.length_singleton]
  have hrest : missingTables s'.ram child is =
      missingTables s.ram a (i :: is) - if entry s.ram a i = 0 then 1 else 0 := by
    rw [← hen.missingTables, htaken, Nat.add_sub_cancel_left]
  rw [← hrest]
  exact hf s' child new hc

theorem mapPage_eq : VirtualMemory.mapPage s root v paddr flags =
    (ensureTable s root (pml4index v)).bind fun r₁ =>
      (ensureTable r₁.1 r₁.2.1 (dirptrindex v)).bind fun r₂ =>
      (ensureTable r₂.1 r₂.2.1 (dirindex v)).bind fun r₃ =>
        some ({ r₃.1 with ram := setEntry r₃.1.ram r₃.2.1 (tableindex v) (paddr ||| flags) },
          r₁.2.2 ++ r₂.2.2 ++ r₃.2.2) := rfl

theorem Space.mapPage_asks (h : Space own root used s) (hchart : Charted s.ram root seen) :
    Asks s (List.replicate (newTables seen v) 1) (VirtualMemory.mapPage s root v paddr flags)
      Prod.fst := by
  obtain ⟨place, hl⟩ := h.level
  rw [← h.missingTables_eq hchart v, mapPage_eq, tablePath]
  refine hl.asks (by simp) fun s₁ pdpt new₁ h₁ => ?_
  obtain ⟨place₁, hl₁, -⟩ := hl.ensure (by simp) h₁
  refine hl₁.asks (by simp) fun s₂ pdt new₂ h₂ => ?_
  obtain ⟨place₂, hl₂, -⟩ := hl₁.ensure (by simp) h₂
  refine hl₂.asks (by simp) fun s₃ pt new₃ h₃ => ?_
  obtain ⟨place₃, hl₃, -⟩ := hl₂.ensure (by simp) h₃
  have hpt : Disjoint (frame pt) own :=
    (hl₃.mapped.frames pt ((hl₃.mapped.placed pt).mp (by simp [hl₃.placed]))).apart
  have hwrite : ∀ b, Alike s₃ b →
      Alike { s₃ with ram := setEntry s₃.ram pt (tableindex v) (paddr ||| flags) } b :=
    fun b hb => hb.write hl₃.sane fun x hx => setEntry_eqOn (Set.disjoint_right.mp hpt hx)
  rw [missingTables, List.replicate_zero]
  exact .pure hwrite

theorem prefix_tablePath : q <+: tablePath v ↔
      q = [] ∨ q = [pml4index v] ∨ q = [pml4index v, dirptrindex v] ∨
    q = [pml4index v, dirptrindex v, dirindex v] := by
  rw [← List.mem_inits, tablePath]
  simp [List.inits]

/-- `MapPage` puts the tables for its page where they were missing. -/
theorem Space.mapPage_charted (h : Space own root used s) (hchart : Charted s.ram root seen)
    (hc : VirtualMemory.mapPage s root v paddr flags = some (s', new)) :
    Charted s'.ram root (v :: seen) := by
  obtain ⟨s₁, pdpt, new₁, s₂, pdt, new₂, s₃, pt, new₃, h₁, h₂, h₃, rfl, rfl⟩ := mapPage_cases hc
  obtain ⟨place, hl⟩ := h.level
  obtain ⟨place₁, hl₁, -, hq₁⟩ := hl.ensure (by simp) h₁
  obtain ⟨place₂, hl₂, -, hq₂⟩ := hl₁.ensure (by simp) h₂
  obtain ⟨place₃, hl₃, -, hq₃⟩ := hl₂.ensure (by simp) h₃
  have hm₃ := hl₃.mapped
  have hsame := hm₃.store_same (i := tableindex v) (e := paddr ||| flags)
    (hl₃.placed ▸ Option.some_ne_none _)
  intro q hq
  have hstore := hm₃.placement.descend_store hl₃.placed (by simp) hsame
    (hm₃.root root (List.mem_singleton_self root)) hq
  dsimp only
  rw [hstore, hq₃ q hq, hq₂ q hq, hq₁ q hq, hchart q hq]
  simp only [List.mem_cons, exists_eq_or_imp, prefix_tablePath (v := v), List.nil_append,
    List.cons_append]
  generalize (∃ u ∈ seen, q <+: tablePath u) = old
  rw [or_assoc, or_assoc, or_assoc, or_comm (a := old), or_assoc (a := q = []) (c := old), or_self_left]

theorem Space.charted_congr (h : Space own root used s) (hchart : Charted s.ram root seen)
    (hsame : ∀ x ∈ tables used, ram x = s.ram x) : Charted ram root seen := by
  obtain ⟨place, hm⟩ := h.mapped
  intro q hq
  rw [← hchart q hq, hm.placement.descend_congr (hm.root root (List.mem_singleton_self root))
    (fun a p i ha _ => entry_congr fun x hx =>
      hsame x (frame_subset_tables ((hm.placed a).mp (by simp [ha])) hx))
    (by simpa using hq)]

theorem Space.charted_grow {W : Set Nat} (h : Space own root used s) (hchart : Charted s.ram root seen)
    (hg : Grow own W s s') (hW : ∀ x ∈ W, x ∉ tables used) : Charted s'.ram root seen := by
  obtain ⟨place, hm⟩ := h.mapped
  refine h.charted_congr hchart ?_
  rintro x ⟨f, hf, hx⟩
  have hmem : x ∈ tables used := frame_subset_tables hf hx
  exact hg.ram x (h.held x hmem) (Set.disjoint_left.mp (hm.frames f hf).apart hx) fun hx' =>
    hW x hx' hmem

theorem charted_nil (hzero : ∀ x ∈ frame root, ram x = 0) : Charted ram root [] := by
  intro q _
  cases q with
  | nil => simp [descend]
  | cons i q =>
    have hnone : descend next (entry ram) root (i :: q) = none := by
      rw [descend, entry_zero hzero]
      rfl
    simp [hnone]

theorem Space.mapCalls_asks {calls : List MapCall} (h : Space own root used s)
    (hchart : Charted s.ram root seen)
    (hcalls : ∀ c ∈ calls, c.root = root ∧ c.flags &&& PageFlags.present = PageFlags.present) :
    Asks s (tableRequests seen (calls.map MapCall.vaddr)) (calls.foldlM mapCall s) id ∧
      ∀ s', calls.foldlM mapCall s = some s' →
      Charted s'.ram root ((calls.map MapCall.vaddr).reverse ++ seen) := by
  induction calls generalizing s used seen with
  | nil => exact ⟨.pure fun _ hb => hb, fun s' hs' => by cases hs'; exact hchart⟩
  | cons c calls ih =>
    obtain ⟨rfl, hflags⟩ := hcalls c List.mem_cons_self
    have hrest : ∀ s₁, mapCall s c = some s₁ →
        Asks s₁ (tableRequests (c.vaddr :: seen) (calls.map MapCall.vaddr))
          (calls.foldlM mapCall s₁) id ∧ ∀ s', calls.foldlM mapCall s₁ = some s' →
            Charted s'.ram c.root ((calls.map MapCall.vaddr).reverse ++ c.vaddr :: seen) := by
      intro s₁ hpage
      obtain ⟨⟨_, new⟩, hmap, rfl⟩ := Option.map_eq_some_iff.mp hpage
      obtain ⟨hext, -⟩ := h.mapPage hflags hmap
      exact ih hext.space (h.mapPage_charted hchart hmap) fun c hc =>
        hcalls c (List.mem_cons_of_mem _ hc)
    have hfirst : Asks s (List.replicate (newTables seen c.vaddr) 1) (mapCall s c) id :=
      (h.mapPage_asks hchart).map fun _ _ _ hb => hb
    refine ⟨?_, fun s' hs' => ?_⟩
    · rw [List.map_cons, tableRequests, List.foldlM_cons]
      exact hfirst.bind fun s₁ hpage => (hrest s₁ hpage).1
    · rw [List.foldlM_cons, Option.bind_eq_bind, Option.bind_eq_some_iff] at hs'
      obtain ⟨s₁, hpage, hs'⟩ := hs'
      rw [List.map_cons, List.reverse_cons, List.append_assoc, List.singleton_append]
      exact (hrest s₁ hpage).2 s' hs'

end

end VirtualMemory

end LimineOS
