import LimineOS.Mm.Vmm

/-!
# Page tables refine a finite map

`Mapped` says where each table in use stands and that the tables above the
bottom grant everything. One `ensureTable` keeps it and changes no
translation (`ensureTable_ok`); one `mapPage` changes the translation of its
own page only (`mapPage_ok`); so after any run a walk finds the last call on
the same root and page (`run_mapPage`).
-/

namespace LimineOS

open ByteMemory TableTree Transition

namespace VirtualMemory

/-- A page of physical memory that has no byte of the allocator's bitmap. -/
structure IsFrame (own : Set Nat) (a : Nat) : Prop where
  aligned : 4096 ∣ a
  inSpace : a < 2 ^ 63
  apart : Disjoint (frame a) own

/-- The tables `used` stand where `place` says, below `roots`, and the memory
`own` of the allocator's bitmap is not theirs. -/
structure Mapped (roots used : List Nat) (own : Set Nat) (s : PhysicalMemory)
    (place : Nat → Option (Nat × List (Fin 512))) : Prop where
  placement : Placement next (entry s.ram) 3 place
  placed a : place a ≠ none ↔ a ∈ used
  root : ∀ r ∈ roots, place r = some (r, [])
  interior {a r : Nat} {p : List (Fin 512)} {i : Fin 512} : place a = some (r, p) → p.length < 3 →
    entry s.ram a i ≠ 0 → entry s.ram a i &&& permMask = permMask
  frames : ∀ a ∈ used, IsFrame own a
  bitmap : s.bitmap.bytes s.limit = own
  inSpace : s.highestAddr < 2 ^ 64
  cursor : s.lastI ≤ s.limit

-- ---------------------------------------------------------------------------
-- A new table
-- ---------------------------------------------------------------------------

def tableEntry (f : Nat) : BitVec 64 := BitVec.ofNat 64 f ||| permMask

section
variable {roots used new : List Nat} {own : Set Nat} {s s₁ s' : PhysicalMemory}
  {place : Nat → Option (Nat × List (Fin 512))} {a b child f r : Nat} {i j : Fin 512}
  {p : List (Fin 512)}

theorem ensureTable_cases (h : ensureTable s a i = some (s', child, new)) :
    (entry s.ram a i ≠ 0 ∧ s' = s ∧ child = entryAddr (entry s.ram a i) ∧ new = []) ∨
      (entry s.ram a i = 0 ∧
        ∃ f s₁, s.alloc 1 = some (f, s₁) ∧ new = [f] ∧ child = entryAddr (tableEntry f) ∧
        s' = { s₁ with ram := setEntry (memset s₁.ram f 0 4096) a i (tableEntry f) }) := by
  unfold ensureTable at h
  split at h
  · rename_i hzero
    simp only [Option.map_eq_some_iff, Prod.mk.injEq] at h
    obtain ⟨⟨f, s₁⟩, ha, rfl, rfl, rfl⟩ := h
    exact .inr ⟨hzero, f, s₁, ha, rfl, congrArg entryAddr entry_setEntry_self, rfl⟩
  · rename_i hzero
    simp only [Option.some.injEq, Prod.mk.injEq] at h
    obtain ⟨rfl, rfl, rfl⟩ := h
    exact .inl ⟨hzero, rfl, rfl, rfl⟩

theorem or_and_of_and_eq_zero {x y mask : BitVec 64} (h : x &&& mask = 0) :
    (x ||| y) &&& mask = y &&& mask := by
  rw [BitVec.and_or_distrib_right, h]
  exact BitVec.zero_or

theorem or_and_self (x y : BitVec 64) : (x ||| y) &&& y = y := by
  refine BitVec.eq_of_getLsbD_eq fun i hi => ?_
  rw [BitVec.getLsbD_and, BitVec.getLsbD_or]
  cases y.getLsbD i <;> simp

theorem tableEntry_perms : tableEntry f &&& permMask = permMask := or_and_self ..

theorem entryAddr_tableEntry (hf : IsFrame own f) : entryAddr (tableEntry f) = f := by
  have hspace := hf.inSpace
  have hnat : (BitVec.ofNat 64 f).toNat = f := by rw [BitVec.toNat_ofNat, Nat.mod_eq_of_lt (by omega)]
  have hmask : BitVec.ofNat 64 f &&& flagMask = 0 :=
    and_flagMask (by rw [hnat]; exact hf.aligned) (by rw [hnat]; exact hf.inSpace)
  rw [tableEntry, entryAddr_or hmask (by decide), hnat]

theorem next_of_perms {e : BitVec 64} (h : e &&& permMask = permMask) :
    next e = some (entryAddr e) := by
  have hpresent : e &&& PageFlags.present ≠ 0 := by
    intro hzero
    have hand : permMask &&& PageFlags.present = 0 := by
      rw [← h, BitVec.and_assoc, BitVec.and_comm permMask, ← BitVec.and_assoc, hzero]
      exact BitVec.zero_and
    exact absurd hand (by decide)
  rw [next, if_neg hpresent]

theorem next_tableEntry (hf : IsFrame own f) : next (tableEntry f) = some f := by
  rw [next_of_perms tableEntry_perms, entryAddr_tableEntry hf]

theorem newTable_entries (h : Mapped roots used own s place) (ha : a ∈ used) (hf : IsFrame own f)
    (hnew : f ∉ used)
    (halloc : s.alloc 1 = some (f, s₁)) :
    (∀ j, entry (setEntry (memset s₁.ram f 0 4096) a i (tableEntry f)) f j = 0) ∧
      ∀ b ∈ used, ∀ j, (b, j) ≠ (a, i) →
        entry (setEntry (memset s₁.ram f 0 4096) a i (tableEntry f)) b j = entry s.ram b j := by
  obtain ⟨-, -, -, hram⟩ := PhysicalMemory.alloc_eqOn halloc (le_refl 1) h.inSpace h.cursor
  rw [h.bitmap] at hram
  constructor
  · intro j
    have hne : f ≠ a := by rintro rfl; exact hnew ha
    rw [entry_setEntry_of_ne (h.frames a ha).aligned hf.aligned (by simp [hne])]
    refine entry_zero fun x hx => ?_
    rw [memset_apply]
    exact if_pos hx
  · intro b hb j hne
    have hbf : b ≠ f := by rintro rfl; exact hnew hb
    have hdisj := frame_disjoint (h.frames b hb).aligned hf.aligned hbf
    rw [entry_setEntry_of_ne (h.frames a ha).aligned (h.frames b hb).aligned hne]
    refine entry_congr fun x hx => ?_
    have hxf : x ∉ frame f := Set.disjoint_left.mp hdisj hx
    have hxown : x ∉ own := Set.disjoint_left.mp (h.frames b hb).apart hx
    rw [memset_eqOn _ _ _ _ hxf]
    exact hram fun hmem => hmem.elim hxown hxf

-- ---------------------------------------------------------------------------
-- One level
-- ---------------------------------------------------------------------------

structure Ensured (roots : List Nat) (s s' : PhysicalMemory) (a i child new)
    (place place' : Nat → Option (Nat × List (Fin 512))) : Prop where
  grows b : place b ≠ none → place' b = place b
  link : next (entry s'.ram a i) = some child
  perms : entry s'.ram a i &&& permMask = permMask
  same b j : place b ≠ none → (b, j) ≠ (a, i) → entry s'.ram b j = entry s.ram b j
  trails : ∀ r' ∈ roots, ∀ is : List (Fin 512), is.length = 4 →
    trail next (entry s'.ram) r' is = trail next (entry s.ram) r' is
  taken : (entry s.ram a i ≠ 0 ∧ s' = s ∧ new = []) ∨
    (entry s.ram a i = 0 ∧ new = [child] ∧ ∀ j, entry s'.ram child j = 0)

theorem Mapped.newTable (h : Mapped roots used own s place) (hplace : place f = none)
    (hframe : IsFrame own f)
    (hplacement : Placement next (entry s'.ram) 3 (hang place f r p i))
    (hperms : entry s'.ram a i &&& permMask = permMask) (hzeroes : ∀ j, entry s'.ram f j = 0)
    (hsame : ∀ b j, place b ≠ none → (b, j) ≠ (a, i) → entry s'.ram b j = entry s.ram b j)
    (hbitmap : s'.bitmap = s.bitmap) (hhigh : s'.highestAddr = s.highestAddr)
    (hcursor : s'.lastI ≤ s'.limit) :
    Mapped roots (used ++ [f]) own s' (hang place f r p i) where
  placement := hplacement
  placed b := by
    rw [List.mem_append, List.mem_singleton]
    rcases eq_or_ne b f with rfl | hbf
    · simp
    · rw [hang, Function.update_of_ne hbf, h.placed b, or_iff_left hbf]
  root r' hr' := by
    have hroot := h.root r' hr'
    rw [hang_of_placed hplace (by simp [hroot]), hroot]
  interior {b r' q j} hb hq hne := by
    rcases eq_or_ne b f with rfl | hbf
    · exact absurd (hzeroes j) hne
    · have hb' := hang_eq_some hb hbf
      by_cases hbj : (b, j) = (a, i)
      · cases hbj
        exact hperms
      · rw [hsame b j (by simp [hb']) hbj] at hne ⊢
        exact h.interior hb' hq hne
  frames b hb := by
    rcases List.mem_append.mp hb with hb | hb
    · exact h.frames b hb
    · obtain rfl := List.mem_singleton.mp hb
      exact hframe
  bitmap := by rw [hbitmap, PhysicalMemory.limit, hhigh]; exact h.bitmap
  inSpace := by rw [hhigh]; exact h.inSpace
  cursor := hcursor

theorem ensureTable_ok (h : Mapped roots used own s place) (ha : place a = some (r, p))
    (hp : p.length < 3)
    (hc : ensureTable s a i = some (s', child, new)) (hfresh : (used ++ new).Nodup)
    (hnew : ∀ f ∈ new, IsFrame own f) :
    ∃ place', Mapped roots (used ++ new) own s' place' ∧ place' child = some (r, p ++ [i]) ∧
      Ensured roots s s' a i child new place place' := by
  rcases ensureTable_cases hc with ⟨hne, rfl, rfl, rfl⟩ | ⟨hzero, f, s₁, halloc, rfl, rfl, rfl⟩
  · have hperms := h.interior ha hp hne
    have hnext := next_of_perms hperms
    refine ⟨place, by rwa [List.append_nil], h.placement.child ha hp hnext, ?_⟩
    exact ⟨fun _ _ => rfl, hnext, hperms, fun _ _ _ _ => rfl, fun _ _ _ _ => rfl, .inl ⟨hne, rfl, rfl⟩⟩
  · have hframe := hnew f (List.mem_singleton_self f)
    have haused : a ∈ used := (h.placed a).mp (by simp [ha])
    have hfused : f ∉ used :=
      fun hmem => List.disjoint_of_nodup_append hfresh hmem (List.mem_singleton_self f)
    have hfplace : place f = none := by
      by_contra hsome
      exact hfused ((h.placed f).mp hsome)
    obtain ⟨hbitmap, hhigh, hcursor, -⟩ :=
      PhysicalMemory.alloc_eqOn halloc (le_refl 1) h.inSpace h.cursor
    obtain ⟨hzeroes, hsame'⟩ := newTable_entries (i := i) h haused hframe hfused halloc
    have hempty : next (entry s.ram a i) = none := by rw [hzero]; rfl
    have hentry : entry (setEntry (memset s₁.ram f 0 4096) a i (tableEntry f)) a i = tableEntry f :=
      entry_setEntry_self
    generalize hram : setEntry (memset s₁.ram f 0 4096) a i (tableEntry f) = ram'
      at hzeroes hsame' hentry
    have hsame : ∀ b j, place b ≠ none → (b, j) ≠ (a, i) → entry ram' b j = entry s.ram b j :=
      fun b j hb hne => hsame' b ((h.placed b).mp hb) j hne
    have hlink : next (entry ram' a i) = some f := by rw [hentry, next_tableEntry hframe]
    have hbelow : ∀ j, next (entry ram' f j) = none := fun j => by rw [hzeroes j]; rfl
    have hplacement := h.placement.link ha hsame hlink hbelow hfplace
    have hperms : entry ram' a i &&& permMask = permMask := by rw [hentry, tableEntry_perms]
    rw [entryAddr_tableEntry hframe]
    refine ⟨hang place f r p i,
      h.newTable hfplace hframe hplacement hperms hzeroes hsame hbitmap hhigh hcursor, hang_self, ?_⟩
    refine ⟨fun b hb => hang_of_placed hfplace hb, hlink, hperms, hsame, fun r' hr' is his => ?_,
      .inr ⟨hzero, rfl, hzeroes⟩⟩
    exact h.placement.trail_link ha hp hempty hsame hlink hbelow (h.root r' hr') (by simpa using his)

theorem Ensured.missingTables {place'} (h : Ensured roots s s' a i child new place place')
    (is : List (Fin 512)) :
    new.length + missingTables s'.ram child is = VirtualMemory.missingTables s.ram a (i :: is) := by
  rcases h.taken with ⟨hne, rfl, rfl⟩ | ⟨hzero, rfl, hzeroes⟩
  · have hchild : child = entryAddr (entry s'.ram a i) :=
      Option.some.inj (h.link.symm.trans (next_of_perms h.perms))
    rw [VirtualMemory.missingTables, if_neg hne, ← hchild, List.length_nil, Nat.zero_add]
  · rw [VirtualMemory.missingTables, if_pos hzero, List.length_singleton, Nat.add_comm]
    congr 1
    cases is with
    | nil => rfl
    | cons k ks => rw [VirtualMemory.missingTables, if_pos (hzeroes k), List.length_cons]

theorem ne_of_place {q : List (Fin 512)} {r' : Nat} (ha : place a = some (r, p))
    (hb : place b = some (r', q))
    (hpq : p.length ≠ q.length) : a ≠ b := by
  rintro rfl
  rw [ha] at hb
  cases hb
  exact hpq rfl

theorem Ensured.placed {place'} {q : List (Fin 512)} {r' : Nat}
    (h : Ensured roots s s' a i child new place place')
    (hb : place b = some (r', q)) : place' b = some (r', q) :=
  (h.grows b (hb ▸ Option.some_ne_none _)).trans hb

theorem Ensured.above {place'} {q : List (Fin 512)} {r' : Nat}
    (h : Ensured roots s s' a i child new place place')
    (ha : place a = some (r, p)) (hb : place b = some (r', q)) (hqp : q.length ≠ p.length)
    (j : Fin 512) :
    entry s'.ram b j = entry s.ram b j := by
  refine h.same b j (hb ▸ Option.some_ne_none _) fun heq => ?_
  exact ne_of_place hb ha hqp (Prod.mk.inj heq).1

-- ---------------------------------------------------------------------------
-- MapPage
-- ---------------------------------------------------------------------------

theorem Mapped.store_same {e : BitVec 64} (h : Mapped roots used own s place) (ha : place a ≠ none)
    (b : Nat) (j : Fin 512) (hb : place b ≠ none) (hne : (b, j) ≠ (a, i)) :
    entry (setEntry s.ram a i e) b j = entry s.ram b j :=
  entry_setEntry_of_ne (h.frames a ((h.placed a).mp ha)).aligned
    (h.frames b ((h.placed b).mp hb)).aligned hne

theorem Mapped.store {e : BitVec 64} (h : Mapped roots used own s place) (ha : place a = some (r, p))
    (hp : p.length = 3) : Mapped roots used own { s with ram := setEntry s.ram a i e } place := by
  have hsame := h.store_same (i := i) (e := e) (ha ▸ Option.some_ne_none _)
  refine ⟨h.placement.store ha hp hsame, h.placed, h.root, ?_, h.frames, h.bitmap, h.inSpace, h.cursor⟩
  intro b r' q j hb hq hne
  have hba : b ≠ a := ne_of_place hb ha (by omega)
  have hbj := hsame b j (by simp [hb]) (by simp [hba])
  simp only at hne ⊢
  rw [hbj] at hne ⊢
  exact h.interior hb hq hne

theorem mapPage_cases {root : Nat} {vaddr paddr flags : BitVec 64}
    (h : mapPage s root vaddr paddr flags = some (s', new)) :
    ∃ s₁ pdpt new₁ s₂ pdt new₂ s₃ pt new₃,
      ensureTable s root (pml4index vaddr) = some (s₁, pdpt, new₁) ∧
      ensureTable s₁ pdpt (dirptrindex vaddr) = some (s₂, pdt, new₂) ∧
      ensureTable s₂ pdt (dirindex vaddr) = some (s₃, pt, new₃) ∧
      new = new₁ ++ new₂ ++ new₃ ∧
      s' = { s₃ with ram := setEntry s₃.ram pt (tableindex vaddr) (paddr ||| flags) } := by
  simp only [mapPage, Option.bind_eq_bind, Option.bind_eq_some_iff, Option.some.injEq,
    Prod.mk.injEq] at h
  obtain ⟨⟨s₁, pdpt, new₁⟩, h₁, ⟨s₂, pdt, new₂⟩, h₂, ⟨s₃, pt, new₃⟩, h₃, rfl, rfl⟩ := h
  exact ⟨s₁, pdpt, new₁, s₂, pdt, new₂, s₃, pt, new₃, h₁, h₂, h₃, rfl, rfl⟩

theorem mapPage_ok {root : Nat} {vaddr paddr flags : BitVec 64} (h : Mapped roots used own s place)
    (hroot : root ∈ roots) (hpresent : (paddr ||| flags) &&& PageFlags.present ≠ 0)
    (hc : mapPage s root vaddr paddr flags = some (s', new)) (hfresh : (used ++ new).Nodup)
    (hnew : ∀ f ∈ new, IsFrame own f) :
    (∃ place', Mapped roots (used ++ new) own s' place') ∧
      (∃ e₁ e₂ e₃, (∀ e ∈ [e₁, e₂, e₃], e &&& permMask = permMask) ∧
        trail next (entry s'.ram) root (indices vaddr) = some [e₁, e₂, e₃, paddr ||| flags]) ∧
      (∀ r' ∈ roots, ∀ is : List (Fin 512), is.length = 4 → (r', is) ≠ (root, indices vaddr) →
        trail next (entry s'.ram) r' is = trail next (entry s.ram) r' is) ∧
      new.length = missingTables s.ram root [pml4index vaddr, dirptrindex vaddr, dirindex vaddr] := by
  obtain ⟨s₁, pdpt, new₁, s₂, pdt, new₂, s₃, pt, new₃, h₁, h₂, h₃, rfl, rfl⟩ := mapPage_cases hc
  rw [← List.append_assoc, ← List.append_assoc] at hfresh
  simp only [List.mem_append, or_imp, forall_and] at hnew
  obtain ⟨⟨hnew₁, hnew₂⟩, hnew₃⟩ := hnew
  have hfresh₂ := hfresh.of_append_left
  have hfresh₁ := hfresh₂.of_append_left
  -- the three tables on the path, one level after the other
  obtain ⟨place₁, hm₁, hplace₁, hen₁⟩ := ensureTable_ok h (h.root root hroot) (by simp) h₁ hfresh₁ hnew₁
  obtain ⟨place₂, hm₂, hplace₂, hen₂⟩ := ensureTable_ok hm₁ hplace₁ (by simp) h₂ hfresh₂ hnew₂
  obtain ⟨place₃, hm₃, hplace₃, hen₃⟩ := ensureTable_ok hm₂ hplace₂ (by simp) h₃ hfresh hnew₃
  have hsame := hm₃.store_same (i := tableindex vaddr) (e := paddr ||| flags)
    (hplace₃ ▸ Option.some_ne_none _)
  have hstore : ∀ {b r'} {q : List (Fin 512)} {j}, place₃ b = some (r', q) → q.length ≠ 3 →
      entry (setEntry s₃.ram pt (tableindex vaddr) (paddr ||| flags)) b j = entry s₃.ram b j := by
    intro b r' q j hb hq
    exact hsame b j (hb ▸ Option.some_ne_none _) fun heq =>
      ne_of_place hb hplace₃ hq (Prod.mk.inj heq).1
  rw [← List.append_assoc, ← List.append_assoc]
  refine ⟨⟨place₃, hm₃.store hplace₃ (by simp)⟩, ?_, ?_, ?_⟩
  · -- later levels do not touch the cells above them
    have hpdpt₂ := hen₂.placed hplace₁
    have hcell₁ : entry (setEntry s₃.ram pt (tableindex vaddr) (paddr ||| flags)) root
        (pml4index vaddr) =
        entry s₁.ram root (pml4index vaddr) := by
      rw [hstore (hm₃.root root hroot) (by simp), hen₃.above hplace₂ (hm₂.root root hroot) (by simp),
        hen₂.above hplace₁ (hm₁.root root hroot) (by simp)]
    have hcell₂ : entry (setEntry s₃.ram pt (tableindex vaddr) (paddr ||| flags)) pdpt
        (dirptrindex vaddr) =
        entry s₂.ram pdpt (dirptrindex vaddr) := by
      rw [hstore (hen₃.placed hpdpt₂) (by simp), hen₃.above hplace₂ hpdpt₂ (by simp)]
    have hcell₃ : entry (setEntry s₃.ram pt (tableindex vaddr) (paddr ||| flags)) pdt (dirindex vaddr) =
        entry s₃.ram pdt (dirindex vaddr) :=
      hstore (hen₃.placed hplace₂) (by simp)
    have hleaf : next (paddr ||| flags) = some (entryAddr (paddr ||| flags)) := by
      rw [next, if_neg hpresent]
    refine ⟨entry s₁.ram root (pml4index vaddr), entry s₂.ram pdpt (dirptrindex vaddr),
      entry s₃.ram pdt (dirindex vaddr), ?_, ?_⟩
    · simp only [List.mem_cons, List.not_mem_nil, or_false, forall_eq_or_imp, forall_eq]
      exact ⟨hen₁.perms, hen₂.perms, hen₃.perms⟩
    · simp only [indices, trail, hcell₁, hcell₂, hcell₃, hen₁.link, hen₂.link, hen₃.link,
        entry_setEntry_self, hleaf, Option.bind_some, Option.map_some]
  · intro r' hr' is his hne
    have hbelow : ([] ++ [pml4index vaddr] ++ [dirptrindex vaddr] ++ [dirindex vaddr]).length =
        3 := by simp
    rw [hm₃.placement.trail_store hplace₃ hbelow hsame (hm₃.root r' hr') (by simpa using his)
      (by simpa [indices] using hne),
      hen₃.trails r' hr' is his, hen₂.trails r' hr' is his, hen₁.trails r' hr' is his]
  · rw [← hen₁.missingTables, ← hen₂.missingTables, ← hen₃.missingTables]
    simp only [List.length_append, missingTables, Nat.add_zero, Nat.add_assoc]

end

-- ---------------------------------------------------------------------------
-- When allocation succeeds
-- ---------------------------------------------------------------------------

/-- From the cursor up to page `last` every page is a clear frame, so
allocations take them in order. -/
structure Stock (own : Set Nat) (s : PhysicalMemory) (last : Nat) : Prop where
  clear : ∀ i, s.lastI ≤ i → i < last → s.bitmap.get s.ram i = false
  frames : ∀ i, s.lastI ≤ i → i < last → IsFrame own (4096 * i)
  nonzero : s.lastI ≠ 0
  fits : last ≤ s.limit
  bitmap : s.bitmap.bytes s.limit = own
  inSpace : s.highestAddr < 2 ^ 64

section
variable {roots used : List Nat} {own : Set Nat} {s s' : PhysicalMemory} {last n : Nat} {ram : Mem}
  {place : Nat → Option (Nat × List (Fin 512))}

theorem Stock.alloc (h : Stock own s last) (hn : 1 ≤ n) (hlast : s.lastI + n ≤ last) :
    ∃ s', s.alloc n = some (4096 * s.lastI, s') ∧ s'.lastI = s.lastI + n ∧ Stock own s' last ∧
      Set.EqOn s'.ram s.ram ownᶜ := by
  have hfits := h.fits
  refine ⟨_, PhysicalMemory.alloc_bump (fun i h₁ h₂ => h.clear i h₁ (by omega)) (by omega) hn
    h.nonzero h.inSpace, rfl, ?_, ?_⟩
  · refine ⟨fun i h₁ h₂ => ?_, fun i h₁ h₂ => ?_, by simp only; omega, h.fits, h.bitmap, h.inSpace⟩
    · simp only at h₁ ⊢
      rw [Bitmap.get_setRange, if_neg (by omega)]
      exact h.clear i (by omega) h₂
    · simp only at h₁
      exact h.frames i (by omega) h₂
  · rw [← h.bitmap]
    exact Bitmap.setRange_eqOn s.bitmap s.ram true (by omega)

theorem Stock.write (h : Stock own s last) (hram : Set.EqOn ram s.ram own) :
    Stock own { s with ram } last := by
  have hfits := h.fits
  refine ⟨fun i h₁ h₂ => ?_, h.frames, h.nonzero, h.fits, h.bitmap, h.inSpace⟩
  rw [← h.bitmap] at hram
  exact (Bitmap.get_congr hram (by omega)).trans (h.clear i h₁ h₂)

theorem ensureTable_isSome {a i} (h : Mapped roots used own s place) (ha : a ∈ used)
    (hs : Stock own s last)
    (hunused : ∀ i, s.lastI ≤ i → i < last → 4096 * i ∉ used) (hlast : s.lastI + 1 ≤ last) :
    ∃ s' child new, ensureTable s a i = some (s', child, new) ∧ (∀ f ∈ new, IsFrame own f) ∧
      ((used ++ new).Nodup ↔ used.Nodup) ∧ Stock own s' last ∧ s'.lastI ≤ s.lastI + 1 ∧
      ∀ i, s'.lastI ≤ i → i < last → 4096 * i ∉ used ++ new := by
  unfold ensureTable
  split
  · obtain ⟨s₁, halloc, hcursor, hstock, -⟩ := hs.alloc (le_refl 1) hlast
    have hframe := hs.frames s.lastI (le_refl _) hlast
    rw [halloc, Option.map_some]
    refine ⟨_, _, _, rfl, fun f hf => List.mem_singleton.mp hf ▸ hframe, ?_,
      hstock.write fun x hx => ?_, hcursor.le, fun i h₁ h₂ hmem => ?_⟩
    · have hnot : 4096 * s.lastI ∉ used := hunused s.lastI (le_refl _) hlast
      rw [List.nodup_append, and_iff_left]
      exact ⟨List.nodup_singleton _,
        fun a ha b hb => by rintro rfl; exact hnot (List.mem_singleton.mp hb ▸ ha)⟩
    · have hxa : x ∉ frame a := Set.disjoint_right.mp (h.frames a ha).apart hx
      have hxf : x ∉ frame (4096 * s.lastI) := Set.disjoint_right.mp hframe.apart hx
      exact (setEntry_eqOn hxa).trans (memset_eqOn _ _ _ _ hxf)
    · rcases List.mem_append.mp hmem with hmem | hmem
      · exact hunused i (by simp only [hcursor] at h₁; omega) h₂ hmem
      · have heq := List.mem_singleton.mp hmem
        simp only [hcursor] at h₁
        omega
  · exact ⟨s, _, [], rfl, by simp, by simp, hs, by omega, by simpa using hunused⟩

theorem mapPage_isSome {root : Nat} (vaddr paddr flags : BitVec 64) (h : Mapped roots used own s place)
    (hroot : root ∈ roots) (hs : Stock own s last)
    (hunused : ∀ i, s.lastI ≤ i → i < last → 4096 * i ∉ used)
    (hnodup : used.Nodup) (hlast : s.lastI + 3 ≤ last) :
    ∃ s' new, mapPage s root vaddr paddr flags = some (s', new) ∧ (∀ f ∈ new, IsFrame own f) ∧
      (used ++ new).Nodup ∧ Stock own s' last ∧ s'.lastI ≤ s.lastI + 3 ∧
      ∀ i, s'.lastI ≤ i → i < last → 4096 * i ∉ used ++ new := by
  have hplace := h.root root hroot
  obtain ⟨s₁, pdpt, new₁, h₁, hf₁, hnd₁, hs₁, hle₁, hun₁⟩ :=
    ensureTable_isSome (i := pml4index vaddr) h ((h.placed root).mp (by simp [hplace])) hs hunused
      (by omega)
  obtain ⟨place₁, hm₁, hplace₁, -⟩ := ensureTable_ok h hplace (by simp) h₁ (hnd₁.mpr hnodup) hf₁
  obtain ⟨s₂, pdt, new₂, h₂, hf₂, hnd₂, hs₂, hle₂, hun₂⟩ :=
    ensureTable_isSome (i := dirptrindex vaddr) hm₁
    ((hm₁.placed pdpt).mp (by simp [hplace₁])) hs₁ hun₁ (by omega)
  obtain ⟨place₂, hm₂, hplace₂, -⟩ :=
    ensureTable_ok hm₁ hplace₁ (by simp) h₂ (hnd₂.mpr (hnd₁.mpr hnodup)) hf₂
  obtain ⟨s₃, pt, new₃, h₃, hf₃, hnd₃, hs₃, hle₃, hun₃⟩ := ensureTable_isSome (i := dirindex vaddr) hm₂
    ((hm₂.placed pdt).mp (by simp [hplace₂])) hs₂ hun₂ (by omega)
  obtain ⟨place₃, hm₃, hplace₃, -⟩ := ensureTable_ok hm₂ hplace₂ (by simp) h₃
    (hnd₃.mpr (hnd₂.mpr (hnd₁.mpr hnodup))) hf₃
  have hpt : IsFrame own pt := hm₃.frames pt ((hm₃.placed pt).mp (by simp [hplace₃]))
  have hmap : mapPage s root vaddr paddr flags =
      some ({ s₃ with ram := setEntry s₃.ram pt (tableindex vaddr) (paddr ||| flags) },
        new₁ ++ new₂ ++ new₃) := by
    simp only [mapPage, Option.bind_eq_bind, h₁, h₂, h₃, Option.bind_some]
  refine ⟨_, _, hmap, ?_, ?_, ?_, by simp only; omega, ?_⟩
  · simp only [List.mem_append, or_imp, forall_and]
    exact ⟨⟨hf₁, hf₂⟩, hf₃⟩
  · simpa [List.append_assoc] using hnd₃.mpr (hnd₂.mpr (hnd₁.mpr hnodup))
  · exact hs₃.write fun x hx => setEntry_eqOn (Set.disjoint_right.mp hpt.apart hx)
  · simpa [List.append_assoc] using hun₃

end

-- ---------------------------------------------------------------------------
-- Runs
-- ---------------------------------------------------------------------------

structure MapCall where
  root : Nat
  vaddr : BitVec 64
  paddr : BitVec 64
  flags : BitVec 64
  deriving DecidableEq, Repr

/-- A call that callers may make: a physical page, and flags from `PageFlags`
with `present` among them. -/
structure MapCall.Ok (roots : List Nat) (c : MapCall) : Prop where
  root : c.root ∈ roots
  aligned : 4096 ∣ c.paddr.toNat
  inSpace : c.paddr.toNat < 2 ^ 51
  flags : c.flags &&& PageFlags.all = c.flags
  present : c.flags &&& PageFlags.present = PageFlags.present

structure Spaces where
  pmm : PhysicalMemory
  used : List Nat

def Spaces.call (st : Spaces) (c : MapCall) : Option Spaces :=
  (mapPage st.pmm c.root c.vaddr c.paddr c.flags).map fun (pmm, new) => ⟨pmm, st.used ++ new⟩

def lastCall (calls : List MapCall) (root : Nat) (vaddr : BitVec 64) : Option MapCall :=
  calls.reverse.find? fun c => c.root = root ∧ SamePage c.vaddr vaddr

def MapCall.translation (c : MapCall) : Translation := ⟨c.paddr ||| c.flags, c.flags &&& permMask⟩

section
variable {roots : List Nat} {s₀ : PhysicalMemory} {st st' : Spaces} {c : MapCall} {calls : List MapCall}

theorem lastCall_snoc (root : Nat) (vaddr : BitVec 64) : lastCall (calls ++ [c]) root vaddr =
    if c.root = root ∧ SamePage c.vaddr vaddr then some c else lastCall calls root vaddr := by
  rw [lastCall, List.reverse_append, List.reverse_singleton, List.singleton_append, List.find?_cons]
  split
  · rename_i h
    rw [if_pos (of_decide_eq_true h)]
  · rename_i h
    rw [if_neg (of_decide_eq_false h), lastCall]

theorem and_of_and_all {flags mask : BitVec 64} (h : flags &&& PageFlags.all = flags)
    (hmask : PageFlags.all &&& mask = PageFlags.all) : flags &&& mask = flags := by
  rw [← h, BitVec.and_assoc, hmask]

theorem MapCall.Ok.entryAddr (h : c.Ok roots) : entryAddr (c.paddr ||| c.flags) = c.paddr.toNat :=
  entryAddr_or (and_flagMask h.aligned (Nat.lt_trans h.inSpace (by decide)))
    (and_of_and_all h.flags (by decide))

theorem MapCall.Ok.ofTrail (h : c.Ok roots) {e₁ e₂ e₃ : BitVec 64}
    (hperms : ∀ e ∈ [e₁, e₂, e₃], e &&& permMask = permMask) :
    Translation.ofTrail [e₁, e₂, e₃, c.paddr ||| c.flags] = c.translation := by
  have hmask := and_flagMask h.aligned (Nat.lt_trans h.inSpace (by decide))
  have hp : c.paddr &&& permMask = 0 := by
    rw [show permMask = flagMask &&& permMask by decide, ← BitVec.and_assoc, hmask]
    exact BitVec.zero_and
  simp only [List.mem_cons, List.not_mem_nil, or_false, forall_eq_or_imp, forall_eq] at hperms
  obtain ⟨h₁, h₂, h₃⟩ := hperms
  have hfold : [e₁, e₂, e₃, c.paddr ||| c.flags].foldl (· &&& ·) permMask = c.flags &&& permMask :=
    calc [e₁, e₂, e₃, c.paddr ||| c.flags].foldl (· &&& ·) permMask
      _ = permMask &&& e₁ &&& e₂ &&& e₃ &&& (c.paddr ||| c.flags) := rfl
      _ = (c.paddr ||| c.flags) &&& permMask := by
        rw [BitVec.and_comm permMask, h₁, BitVec.and_comm permMask, h₂, BitVec.and_comm permMask, h₃,
          BitVec.and_comm permMask]
      _ = c.flags &&& permMask := by rw [or_and_of_and_eq_zero hp]
  rw [Translation.ofTrail, hfold]
  rfl

theorem MapCall.Ok.leaf_present (h : c.Ok roots) : (c.paddr ||| c.flags) &&& PageFlags.present ≠ 0 := by
  have hmask := and_flagMask h.aligned (Nat.lt_trans h.inSpace (by decide))
  have hp : c.paddr &&& PageFlags.present = 0 := by
    rw [show PageFlags.present = flagMask &&& PageFlags.present by decide, ← BitVec.and_assoc, hmask]
    exact BitVec.zero_and
  rw [or_and_of_and_eq_zero hp, h.present]
  decide

theorem Mapped.start {own : Set Nat} {s : PhysicalMemory} (hframes : ∀ r ∈ roots, IsFrame own r)
    (hzero : ∀ r ∈ roots, ∀ x ∈ frame r, s.ram x = 0) (hbitmap : s.bitmap.bytes s.limit = own)
    (hspace : s.highestAddr < 2 ^ 64) (hcursor : s.lastI ≤ s.limit) :
    Mapped roots roots own s fun a => if a ∈ roots then some (a, []) else none where
  placement := by
    refine ⟨fun {a b r p i} ha _ hn => ?_⟩
    split at ha
    · rename_i hmem
      rw [entry_zero (hzero a hmem)] at hn
      simp [next] at hn
    · simp at ha
  placed a := by simp
  root r hr := if_pos hr
  interior {a r p i} ha _ hne := by
    split at ha
    · rename_i hmem
      exact absurd (entry_zero (hzero a hmem)) hne
    · simp at ha
  frames := hframes
  bitmap := hbitmap
  inSpace := hspace
  cursor := hcursor

/-- One call of a run: its own page, every other page, and the tables it took. -/
theorem call_ok {own : Set Nat} {place} (h : Mapped roots st.used own st.pmm place)
    (hc : Steps Spaces.call st c st')
    (hok : c.Ok roots) (hfresh : st'.used.Nodup) (hframes : ∀ f ∈ st'.used, IsFrame own f) :
    (∃ place', Mapped roots st'.used own st'.pmm place') ∧
      (∀ root ∈ roots, ∀ v, walk st'.pmm.ram root v =
        if c.root = root ∧ SamePage c.vaddr v then some c.translation else walk st.pmm.ram root v) ∧
      st'.used.length = st.used.length +
        missingTables st.pmm.ram c.root [pml4index c.vaddr, dirptrindex c.vaddr, dirindex c.vaddr] := by
  simp only [Steps, Spaces.call, Option.map_eq_some_iff, Prod.exists] at hc
  obtain ⟨pmm, new, hmap, rfl⟩ := hc
  obtain ⟨hplace, ⟨e₁, e₂, e₃, hperms, htrail⟩, hother, hlen⟩ :=
    mapPage_ok h hok.root hok.leaf_present hmap hfresh fun f hf =>
      hframes f (List.mem_append_right _ hf)
  refine ⟨hplace, fun root hroot v => ?_, by rw [List.length_append, hlen]⟩
  split
  · rename_i hpage
    obtain ⟨rfl, hsame⟩ := hpage
    rw [walk, ← indices_eq_iff.mpr hsame, htrail, Option.map_some, hok.ofTrail hperms]
  · rename_i hpage
    rw [walk, hother root hroot (indices v) rfl, walk]
    intro heq
    obtain ⟨hr, hi⟩ := Prod.mk.inj heq
    exact hpage ⟨hr.symm, indices_eq_iff.mp hi.symm⟩

theorem used_suffix (hc : Steps Spaces.call st c st') : ∃ new, st'.used = st.used ++ new := by
  simp only [Steps, Spaces.call, Option.map_eq_some_iff, Prod.exists] at hc
  obtain ⟨pmm, new, -, rfl⟩ := hc
  exact ⟨new, rfl⟩

/-- Page tables refine a finite map. After any run of calls on zero-filled
roots, where no frame taken for a table was in use, a walk finds what the last
call on its root and page put there; a further call changes the walks of its
own page only and takes one frame for each missing level. -/
theorem run_mapPage (hspace : s₀.highestAddr < 2 ^ 64) (hcursor : s₀.lastI ≤ s₀.limit)
    (hzero : ∀ r ∈ roots, ∀ x ∈ frame r, s₀.ram x = 0) (hcalls : ∀ c ∈ calls, c.Ok roots)
    (hrun : Run (Steps Spaces.call) ⟨s₀, roots⟩ calls st)
    (hfresh : st.used.Nodup) (hframes : ∀ f ∈ st.used, IsFrame (s₀.bitmap.bytes s₀.limit) f) :
    (∀ root ∈ roots, ∀ v, walk st.pmm.ram root v = (lastCall calls root v).map MapCall.translation) ∧
      (∀ c ∈ calls, entryAddr c.translation.leaf = c.paddr.toNat) ∧
      ∀ c st', c.Ok roots → st.call c = some st' → st'.used.Nodup →
        (∀ f ∈ st'.used, IsFrame (s₀.bitmap.bytes s₀.limit) f) →
        (∀ root ∈ roots, ∀ v, root ≠ c.root ∨ ¬SamePage c.vaddr v →
          walk st'.pmm.ram root v = walk st.pmm.ram root v) ∧
        st'.used.length = st.used.length +
          missingTables st.pmm.ram c.root
            [pml4index c.vaddr, dirptrindex c.vaddr, dirindex c.vaddr] := by
  have hinv : st.used.Nodup → (∀ f ∈ st.used, IsFrame (s₀.bitmap.bytes s₀.limit) f) →
      (∀ c ∈ calls, c.Ok roots) →
      (∃ place, Mapped roots st.used (s₀.bitmap.bytes s₀.limit) st.pmm place) ∧
        ∀ root ∈ roots, ∀ v,
        walk st.pmm.ram root v = (lastCall calls root v).map MapCall.translation := by
    refine hrun.history (I := fun calls st => st.used.Nodup →
      (∀ f ∈ st.used, IsFrame (s₀.bitmap.bytes s₀.limit) f) → (∀ c ∈ calls, c.Ok roots) →
      (∃ place, Mapped roots st.used (s₀.bitmap.bytes s₀.limit) st.pmm place) ∧
        ∀ root ∈ roots, ∀ v,
        walk st.pmm.ram root v = (lastCall calls root v).map MapCall.translation) ?_ ?_
    · intro hnodup hfr _
      refine ⟨⟨_, Mapped.start hfr hzero rfl hspace hcursor⟩, fun root hroot v => ?_⟩
      rw [walk, indices, trail_cons_none (by rw [entry_zero (hzero root hroot)]; rfl)]
      rfl
    · rintro cs st c st' ih hc hnodup hfr hok
      obtain ⟨new, hnew⟩ := used_suffix hc
      have hsub : ∀ f ∈ st.used, f ∈ st'.used := fun f hf => hnew ▸ List.mem_append_left _ hf
      obtain ⟨⟨place, hm⟩, hwalk⟩ := ih (hnew ▸ hnodup).of_append_left (fun f hf => hfr f (hsub f hf))
        fun c hc => hok c (List.mem_append_left _ hc)
      obtain ⟨hm', hwalk', -⟩ := call_ok hm hc (hok c (by simp)) hnodup hfr
      refine ⟨hm', fun root hroot v => ?_⟩
      rw [hwalk' root hroot v, lastCall_snoc]
      split
      · rfl
      · exact hwalk root hroot v
  obtain ⟨⟨place, hm⟩, hwalk⟩ := hinv hfresh hframes hcalls
  refine ⟨hwalk, fun c hc => (hcalls c hc).entryAddr, fun c st' hok hc hfresh' hframes' => ?_⟩
  obtain ⟨-, hwalk', hlen⟩ := call_ok hm hc hok hfresh' hframes'
  refine ⟨fun root hroot v hv => ?_, hlen⟩
  rw [hwalk' root hroot v, if_neg fun h => hv.elim (fun hne => hne h.1.symm) fun hne => hne h.2]

/-- With three pages left for each call, the run goes through. -/
theorem run_isSome {own : Set Nat} {last : Nat} {place} (h : Mapped roots st.used own st.pmm place)
    (hs : Stock own st.pmm last) (hunused : ∀ i, st.pmm.lastI ≤ i → i < last → 4096 * i ∉ st.used)
    (hnodup : st.used.Nodup) (hcalls : ∀ c ∈ calls, c.Ok roots)
    (hlast : st.pmm.lastI + 3 * calls.length ≤ last) :
    ∃ st', Run (Steps Spaces.call) st calls st' ∧ st'.used.Nodup ∧ ∀ f ∈ st'.used, IsFrame own f := by
  induction calls generalizing st place with
  | nil => exact ⟨st, .nil, hnodup, h.frames⟩
  | cons c calls ih =>
    rw [List.length_cons] at hlast
    have hok : c.Ok roots := hcalls c List.mem_cons_self
    obtain ⟨pmm, new, hmap, hnew, hnodup₁, hs₁, hle, hunused₁⟩ :=
      mapPage_isSome c.vaddr c.paddr c.flags h hok.root hs hunused hnodup (by omega)
    have hcall : Steps Spaces.call st c ⟨pmm, st.used ++ new⟩ := by
      rw [Steps, Spaces.call, hmap, Option.map_some]
    have hframes : ∀ f ∈ st.used ++ new, IsFrame own f := by
      simp only [List.mem_append, or_imp, forall_and]
      exact ⟨h.frames, hnew⟩
    obtain ⟨⟨_, h₁⟩, -⟩ := call_ok h hcall hok hnodup₁ hframes
    obtain ⟨st', hrun, hfresh⟩ :=
      ih h₁ hs₁ hunused₁ hnodup₁ (fun c hc => hcalls c (List.mem_cons_of_mem _ hc))
        (by simp only; omega)
    exact ⟨st', .cons hcall hrun, hfresh⟩

end

def sixteenClear : PhysicalMemory where
  ram := fun _ => 0
  mmap := []
  bitmap := ⟨0x20000⟩
  highestAddr := 0x10000
  lastI := 1

theorem sixteenClear_stock : Stock (sixteenClear.bitmap.bytes sixteenClear.limit) sixteenClear 16 where
  clear i h₁ h₂ := by simp [Bitmap.get, sixteenClear]
  frames i h₁ h₂ := ⟨by omega, by omega, span_disjoint (by simp only [sixteenClear]; omega)⟩
  nonzero := by decide
  fits := by decide
  bitmap := rfl
  inSpace := by decide

/-- Two address spaces by turns. Both map page 0x400000; the first one also maps
the page after it, under the same tables, and at last the first page again. -/
def byTurns : List MapCall := [
  ⟨0x10000, 0x400000, 0x7000, PageFlags.present ||| PageFlags.user⟩,
  ⟨0x11000, 0x400000, 0x8000, PageFlags.present⟩,
  ⟨0x10000, 0x401000, 0x9000, PageFlags.present ||| PageFlags.readwrite⟩,
  ⟨0x10000, 0x400000, 0xa000, PageFlags.present⟩]

theorem run_mapPage_byTurns :
    ∃ st, Run (Steps Spaces.call) ⟨sixteenClear, [0x10000, 0x11000]⟩ byTurns st ∧
      walk st.pmm.ram 0x10000 0x400000 = some ⟨0xa001, 1⟩ ∧
      walk st.pmm.ram 0x10000 0x401000 = some ⟨0x9003, 3⟩ ∧
      walk st.pmm.ram 0x11000 0x400000 = some ⟨0x8001, 1⟩ ∧
      walk st.pmm.ram 0x11000 0x401000 = none := by
  have hroots : ∀ r ∈ [0x10000, 0x11000], IsFrame (sixteenClear.bitmap.bytes sixteenClear.limit) r := by
    simp only [List.forall_mem_cons]
    exact ⟨⟨by decide, by decide, span_disjoint (by decide)⟩,
      ⟨by decide, by decide, span_disjoint (by decide)⟩, by simp⟩
  have hunused : ∀ i, sixteenClear.lastI ≤ i → i < 16 → 4096 * i ∉ [0x10000, 0x11000] :=
    fun i _ hi => by
    simp only [List.mem_cons, List.not_mem_nil, or_false]
    omega
  have hcalls : ∀ c ∈ byTurns, c.Ok [0x10000, 0x11000] := by
    simp only [byTurns, List.forall_mem_cons]
    refine ⟨?_, ?_, ?_, ?_, by simp⟩ <;> constructor <;> decide
  have hsome : ∃ st, Run (Steps Spaces.call) ⟨sixteenClear, [0x10000, 0x11000]⟩ byTurns st ∧
      st.used.Nodup ∧ ∀ f ∈ st.used, IsFrame (sixteenClear.bitmap.bytes sixteenClear.limit) f :=
    run_isSome (Mapped.start hroots (fun _ _ _ _ => rfl) rfl (by decide) (by decide))
      sixteenClear_stock hunused
      (by decide) hcalls (by decide)
  obtain ⟨st, hrun, hfresh, hframes⟩ := hsome
  obtain ⟨hwalk, -⟩ :=
    run_mapPage (by decide) (by decide) (fun _ _ _ _ => rfl) hcalls hrun hfresh hframes
  refine ⟨st, hrun, ?_, ?_, ?_, ?_⟩
  · rw [hwalk 0x10000 (by decide)]
    decide
  · rw [hwalk 0x10000 (by decide)]
    decide
  · rw [hwalk 0x11000 (by decide)]
    decide
  · rw [hwalk 0x11000 (by decide)]
    decide

end VirtualMemory

end LimineOS
