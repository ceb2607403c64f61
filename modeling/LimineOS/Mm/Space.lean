import LimineOS.Mm.Frames

/-!
# An address space under construction

`Space` ties the tables of one root to the allocator: every table stands on a
held page of its own. Since an allocation takes free pages only, a `MapPage`
keeps the space whatever the allocator finds (`Space.mapPage`), and held bytes
outside the tables keep their contents. `leaf` is what a walk ends with.
-/

namespace LimineOS

open ByteMemory TableTree PhysicalMemory

namespace VirtualMemory

def tables (used : List Nat) : Set Nat := {x | ∃ f ∈ used, x ∈ frame f}

def leaf (ram : Mem) (root : Nat) (vaddr : BitVec 64) : Option (BitVec 64) :=
  (walk ram root vaddr).map (·.leaf)

structure Space (own : Set Nat) (root : Nat) (used : List Nat) (s : PhysicalMemory) : Prop where
  sane : Sane own s
  mapped : ∃ place, Mapped [root] used own s place
  nodup : used.Nodup
  held : ∀ x ∈ tables used, s.Held x

/-- A space that has grown: new tables stand on pages that were free, and of
what was held only the old tables have been written. -/
structure Extended (own : Set Nat) (root : Nat) (used : List Nat) (s : PhysicalMemory)
    (used' : List Nat)
    (s' : PhysicalMemory) : Prop where
  space : Space own root used' s'
  grow : Grow own (tables used) s s'
  old : ∀ x ∈ tables used', s.Held x → x ∈ tables used

section
variable {own : Set Nat} {roots used used' new : List Nat} {s s' : PhysicalMemory}
  {a child p n root x : Nat} {i : Fin 512}
  {place : Nat → Option (Nat × List (Fin 512))} {v w paddr flags : BitVec 64}

theorem tables_append : x ∈ tables (used ++ new) ↔ x ∈ tables used ∨ x ∈ tables new := by
  simp only [tables, Set.mem_ofPred_eq, List.mem_append, or_and_right, exists_or]

theorem frame_subset_tables (ha : a ∈ used) (hx : x ∈ frame a) : x ∈ tables used := ⟨a, ha, hx⟩

theorem isFrame_of_allocated (h : Allocated own s s' p n) (hs : Sane own s) (hn : 1 ≤ n) :
    IsFrame own p where
  aligned := h.aligned
  inSpace := by
    have hfree := (h.free p ⟨le_refl p, by omega⟩).1
    have hspace := hs.inSpace
    rw [PhysicalMemory.limit] at hfree
    obtain ⟨k, rfl⟩ := h.aligned
    omega
  apart := by
    rw [Set.disjoint_left]
    intro x hx
    refine hs.apart x (h.free x ⟨hx.1, ?_⟩)
    have := hx.2
    omega

theorem ensureTable_grow (hs : Sane own s) (hm : Mapped roots used own s place) (hnodup : used.Nodup)
    (hheld : ∀ x ∈ tables used, s.Held x) (ha : a ∈ used)
    (hc : ensureTable s a i = some (s', child, new)) :
    Sane own s' ∧ Grow own (tables used) s s' ∧ (used ++ new).Nodup ∧ (∀ f ∈ new, IsFrame own f) ∧
      (∀ x ∈ tables (used ++ new), s'.Held x) ∧ ∀ x ∈ tables new, s.Free x := by
  rcases ensureTable_cases hc with ⟨-, rfl, -, rfl⟩ | ⟨-, f, s₁, halloc, rfl, -, rfl⟩
  · rw [List.append_nil]
    exact ⟨hs, .refl, hnodup, by simp, hheld, by simp [tables]⟩
  · have hal := hs.alloc (le_refl 1) halloc
    have hframe := isFrame_of_allocated hal hs (le_refl 1)
    have hfree : ∀ x ∈ frame f, s.Free x := hal.free
    have hnot : f ∉ used := fun hf =>
      (hheld f (frame_subset_tables hf ⟨le_refl f, by omega⟩)).not_free (hfree f ⟨le_refl f, by omega⟩)
    have hheld₁ : ∀ x ∈ frame f ∪ frame a, s₁.Held x := by
      rintro x (hx | hx)
      · exact hal.held x hx
      · exact hal.grow.held x (hheld x (frame_subset_tables ha hx))
    have hown : ∀ x ∈ frame f ∪ frame a, x ∉ own := by
      rintro x (hx | hx)
      · exact Set.disjoint_left.mp hframe.apart hx
      · exact Set.disjoint_left.mp (hm.frames a ha).apart hx
    have hram : ∀ x ∉ frame f ∪ frame a,
        setEntry (memset s₁.ram f 0 4096) a i (tableEntry f) x = s₁.ram x := by
      intro x hx
      rw [Set.mem_union, not_or] at hx
      exact (setEntry_eqOn hx.2).trans (memset_eqOn _ _ _ _ hx.1)
    obtain ⟨hsane, hgrow⟩ := hal.sane.write hram hheld₁ hown
    refine ⟨hsane, ?_, ?_, ?_, ?_, ?_⟩
    · refine (hal.grow.mono (by simp)).trans hgrow ?_
      rintro x (hx | hx) hx'
      · exact absurd (hfree x hx) hx'.not_free
      · exact frame_subset_tables ha hx
    · rw [List.nodup_append, and_iff_right hnodup, and_iff_right (List.nodup_singleton f)]
      rintro b hb c hc rfl
      exact hnot (List.mem_singleton.mp hc ▸ hb)
    · rintro g hg
      exact List.mem_singleton.mp hg ▸ hframe
    · intro x hx
      rcases tables_append.mp hx with hx | ⟨g, hg, hx⟩
      · exact hgrow.held x (hal.grow.held x (hheld x hx))
      · exact hgrow.held x (hal.held x (List.mem_singleton.mp hg ▸ hx))
    · rintro x ⟨g, hg, hx⟩
      exact hfree x (List.mem_singleton.mp hg ▸ hx)

theorem leaf_of_trail {e₁ e₂ e₃ e : BitVec 64} {ram ram' : Mem}
    (htrail : trail next (entry ram') root (indices v) = some [e₁, e₂, e₃, e])
    (hother : indices w ≠ indices v →
      trail next (entry ram') root (indices w) = trail next (entry ram) root (indices w)) :
    leaf ram' root w = if SamePage v w then some e else leaf ram root w := by
  split_ifs with hsame
  · rw [leaf, walk, ← indices_eq_iff.mpr hsame, htrail]
    rfl
  · rw [leaf, walk, hother fun heq => hsame (indices_eq_iff.mp heq.symm), leaf, walk]

theorem Extended.refl (h : Space own root used s) : Extended own root used s used s :=
  ⟨h, .refl, fun _ hx _ => hx⟩

theorem Extended.trans {used₁ used₂ : List Nat} {s₁ s₂ : PhysicalMemory}
    (h : Extended own root used s used₁ s₁) (h' : Extended own root used₁ s₁ used₂ s₂) :
    Extended own root used s used₂ s₂ where
  space := h'.space
  grow := h.grow.trans h'.grow h.old
  old x hx hheld := h.old x (h'.old x hx (h.grow.held x hheld)) hheld

theorem Space.mapPage (h : Space own root used s)
    (hpresent : flags &&& PageFlags.present = PageFlags.present)
    (hc : VirtualMemory.mapPage s root v paddr flags = some (s', new)) :
    Extended own root used s (used ++ new) s' ∧
      ∀ w, leaf s'.ram root w = if SamePage v w then some (paddr ||| flags) else leaf s.ram root w := by
  obtain ⟨place, hm⟩ := h.mapped
  have hroot := hm.root root (List.mem_singleton_self root)
  obtain ⟨s₁, pdpt, new₁, s₂, pdt, new₂, s₃, pt, new₃, h₁, h₂, h₃, rfl, rfl⟩ := mapPage_cases hc
  -- the three tables on the path, one level after the other
  obtain ⟨hs₁, hg₁, hnd₁, hf₁, hh₁, hfree₁⟩ :=
    ensureTable_grow h.sane hm h.nodup h.held ((hm.placed root).mp (by simp [hroot])) h₁
  obtain ⟨place₁, hm₁, hplace₁, -⟩ := ensureTable_ok hm hroot (by simp) h₁ hnd₁ hf₁
  obtain ⟨hs₂, hg₂, hnd₂, hf₂, hh₂, hfree₂⟩ :=
    ensureTable_grow hs₁ hm₁ hnd₁ hh₁ ((hm₁.placed pdpt).mp (by simp [hplace₁])) h₂
  obtain ⟨place₂, hm₂, hplace₂, -⟩ := ensureTable_ok hm₁ hplace₁ (by simp) h₂ hnd₂ hf₂
  obtain ⟨hs₃, hg₃, hnd₃, hf₃, hh₃, hfree₃⟩ :=
    ensureTable_grow hs₂ hm₂ hnd₂ hh₂ ((hm₂.placed pdt).mp (by simp [hplace₂])) h₃
  obtain ⟨place₃, hm₃, hplace₃, -⟩ := ensureTable_ok hm₂ hplace₂ (by simp) h₃ hnd₃ hf₃
  have hpt : pt ∈ used ++ new₁ ++ new₂ ++ new₃ := (hm₃.placed pt).mp (by simp [hplace₃])
  obtain ⟨hs', hg'⟩ := hs₃.write (W := frame pt) (fun x hx => setEntry_eqOn (e := paddr ||| flags)
    (i := tableindex v) hx) (fun x hx => hh₃ x (frame_subset_tables hpt hx))
    fun x hx => Set.disjoint_left.mp (hm₃.frames pt hpt).apart hx
  -- what was held before lies in the old tables where it lies in any
  have hold₁ : ∀ x ∈ tables (used ++ new₁), s.Held x → x ∈ tables used := fun x hx hx' =>
    (tables_append.mp hx).resolve_right fun hnew => hx'.not_free (hfree₁ x hnew)
  have hold₂ : ∀ x ∈ tables (used ++ new₁ ++ new₂), s.Held x → x ∈ tables used := fun x hx hx' =>
    hold₁ x ((tables_append.mp hx).resolve_right fun hnew =>
      hx'.not_free (hg₁.free x (hfree₂ x hnew)).1) hx'
  have hold₃ : ∀ x ∈ tables (used ++ new₁ ++ new₂ ++ new₃), s.Held x → x ∈ tables used :=
    fun x hx hx' =>
    hold₂ x ((tables_append.mp hx).resolve_right fun hnew =>
      hx'.not_free (hg₁.free x (hg₂.free x (hfree₃ x hnew)).1).1) hx'
  have hpresent' : (paddr ||| flags) &&& PageFlags.present ≠ 0 := by
    rw [BitVec.and_or_distrib_right, hpresent]
    intro hzero
    have hself := or_and_self (paddr &&& PageFlags.present) PageFlags.present
    rw [hzero] at hself
    exact absurd hself (by decide)
  have hassoc : used ++ (new₁ ++ new₂ ++ new₃) = used ++ new₁ ++ new₂ ++ new₃ := by
    simp only [List.append_assoc]
  obtain ⟨hmapped, ⟨e₁, e₂, e₃, -, htrail⟩, hother, -⟩ :=
    mapPage_ok hm (List.mem_singleton_self root) hpresent' hc
    (hassoc ▸ hnd₃) (by simp only [List.mem_append, or_imp, forall_and]; exact ⟨⟨hf₁, hf₂⟩, hf₃⟩)
  refine ⟨⟨⟨hs', hmapped, hassoc ▸ hnd₃, ?_⟩, ?_, hassoc ▸ hold₃⟩, fun w => ?_⟩
  · rw [hassoc]
    exact fun x hx => hg'.held x (hh₃ x hx)
  · exact ((hg₁.trans hg₂ hold₁).trans hg₃ hold₂).trans hg' fun x hx =>
      hold₃ x (frame_subset_tables hpt hx)
  · exact leaf_of_trail htrail fun hne =>
      hother root (List.mem_singleton_self root) (indices w) rfl (by simp [hne])

-- ---------------------------------------------------------------------------
-- What the rest of the kernel does meanwhile
-- ---------------------------------------------------------------------------

theorem Mapped.congr (hm : Mapped roots used own s place) (hs : Sane own s')
    (hsame : ∀ x ∈ tables used, s'.ram x = s.ram x) : Mapped roots used own s' place := by
  have hentry : ∀ b j, place b ≠ none → entry s'.ram b j = entry s.ram b j := fun b j hb =>
    entry_congr fun x hx => hsame x (frame_subset_tables ((hm.placed b).mp hb) hx)
  have hspace := hs.inSpace
  refine ⟨⟨fun {b c r q j} hb hq hn => ?_⟩, hm.placed, hm.root,
    fun {b r q j} hb hq hne => ?_, hm.frames, hs.bitmap, by omega, hs.cursor⟩
  · rw [hentry b j (by simp [hb])] at hn
    exact hm.placement.child hb hq hn
  · rw [hentry b j (by simp [hb])] at hne ⊢
    exact hm.interior hb hq hne

theorem Space.grow {W : Set Nat} (h : Space own root used s) (hs : Sane own s') (hg : Grow own W s s')
    (hW : ∀ x ∈ W, x ∉ tables used) :
    Space own root used s' ∧ ∀ w, leaf s'.ram root w = leaf s.ram root w := by
  obtain ⟨place, hm⟩ := h.mapped
  have hsame : ∀ x ∈ tables used, s'.ram x = s.ram x := by
    rintro x ⟨f, hf, hx⟩
    have hown : x ∉ own := Set.disjoint_left.mp (hm.frames f hf).apart hx
    exact hg.ram x (h.held x ⟨f, hf, hx⟩) hown fun hxW => hW x hxW ⟨f, hf, hx⟩
  refine ⟨⟨hs, ⟨place, hm.congr hs hsame⟩, h.nodup, fun x hx => hg.held x (h.held x hx)⟩, fun w => ?_⟩
  rw [leaf, leaf, walk, walk, hm.placement.trail_congr (hm.root root (List.mem_singleton_self root))
    (fun a q j ha _ => ?_) (by simp [indices])]
  exact entry_congr fun x hx => hsame x (frame_subset_tables ((hm.placed a).mp (by simp [ha])) hx)

theorem Space.took (h : Space own root used s) (hs : Sane own s') (hg : Grow own ∅ s s') :
    Extended own root used s used s' ∧ ∀ w, leaf s'.ram root w = leaf s.ram root w := by
  obtain ⟨hspace, hleaf⟩ := h.grow hs hg (by simp)
  exact ⟨⟨hspace, hg.mono (by simp), fun _ hx _ => hx⟩, hleaf⟩

theorem Extended.write {W : Set Nat} {ram : Mem} (h : Extended own root used s used' s')
    (hram : ∀ x ∉ W, ram x = s'.ram x) (hfree : ∀ x ∈ W, s.Free x) (hheld : ∀ x ∈ W, s'.Held x)
    (hown : ∀ x ∈ W, x ∉ own) (hW : ∀ x ∈ W, x ∉ tables used') :
    Extended own root used s used' { s' with ram } ∧ ∀ w, leaf ram root w = leaf s'.ram root w := by
  obtain ⟨hsane, hgrow⟩ := h.space.sane.write hram hheld hown
  obtain ⟨hspace, hleaf⟩ := h.space.grow hsane hgrow hW
  exact ⟨⟨hspace, h.grow.trans hgrow fun x hx hx' => absurd (hfree x hx) hx'.not_free, h.old⟩, hleaf⟩

theorem Space.start (hs : Sane own s) (hroot : IsFrame own root) (hzero : ∀ x ∈ frame root, s.ram x = 0)
    (hheld : ∀ x ∈ frame root, s.Held x) : Space own root [root] s ∧ ∀ w, leaf s.ram root w = none := by
  have hspace := hs.inSpace
  refine ⟨⟨hs,
    ⟨_, Mapped.start (by simpa using hroot) (by simpa using hzero) hs.bitmap (by omega) hs.cursor⟩,
    List.nodup_singleton root, ?_⟩, fun w => ?_⟩
  · rintro x ⟨f, hf, hx⟩
    exact hheld x (List.mem_singleton.mp hf ▸ hx)
  · rw [leaf, walk, indices, trail_cons_none (by rw [entry_zero hzero]; rfl)]
    rfl

-- ---------------------------------------------------------------------------
-- Mapping loops
-- ---------------------------------------------------------------------------

def mapCall (s : PhysicalMemory) (c : MapCall) : Option PhysicalMemory :=
  (VirtualMemory.mapPage s c.root c.vaddr c.paddr c.flags).map Prod.fst

def MapCall.entry (c : MapCall) : BitVec 64 := c.paddr ||| c.flags

theorem lastCall_append {calls calls' : List MapCall} :
    lastCall (calls ++ calls') root v = (lastCall calls' root v).or (lastCall calls root v) := by
  rw [lastCall, List.reverse_append, List.find?_append]
  rfl

theorem lastCall_cons {c : MapCall} {calls : List MapCall} :
    lastCall (c :: calls) root v =
      (lastCall calls root v).or (if c.root = root ∧ SamePage c.vaddr v then some c else none) := by
  rw [← List.singleton_append, lastCall_append]
  congr 1
  rw [lastCall, List.reverse_singleton, List.find?_singleton]
  simp only [decide_eq_true_eq]

/-- After a sequence of calls a walk ends with what the last call on the page
put there. -/
theorem mapCalls_ok {calls : List MapCall} (h : Space own root used s)
    (hcalls : ∀ c ∈ calls, c.root = root ∧ c.flags &&& PageFlags.present = PageFlags.present)
    (hc : calls.foldlM mapCall s = some s') :
    ∃ used', Extended own root used s used' s' ∧
      ∀ v, leaf s'.ram root v = ((lastCall calls root v).map MapCall.entry).or (leaf s.ram root v) := by
  induction calls generalizing s used with
  | nil =>
    obtain rfl := Option.some.inj hc
    exact ⟨used, .refl h, fun _ => rfl⟩
  | cons c calls ih =>
    rw [List.foldlM_cons, Option.bind_eq_bind, Option.bind_eq_some_iff] at hc
    obtain ⟨s₁, hpage, hrest⟩ := hc
    obtain ⟨⟨_, new⟩, hmap, rfl⟩ := Option.map_eq_some_iff.mp hpage
    obtain ⟨rfl, hflags⟩ := hcalls c List.mem_cons_self
    obtain ⟨hext, hleaf⟩ := h.mapPage hflags hmap
    obtain ⟨used', hext', hleaf'⟩ :=
      ih hext.space (fun c hc => hcalls c (List.mem_cons_of_mem _ hc)) hrest
    refine ⟨used', hext.trans hext', fun v => ?_⟩
    rw [hleaf' v, hleaf v, lastCall_cons]
    cases lastCall calls c.root v with
    | some c' => rfl
    | none =>
      by_cases hsame : SamePage c.vaddr v
      · rw [if_pos hsame, if_pos ⟨rfl, hsame⟩]
        rfl
      · rw [if_neg hsame, if_neg fun h => hsame h.2]
        rfl

theorem Mapped.trail_perms {r : Nat} {q is : List (Fin 512)} {es : List (BitVec 64)}
    (hm : Mapped roots used own s place) (ha : place a = some (r, q)) (hlen : q.length + is.length ≤ 4)
    (htrail : trail next (entry s.ram) a is = some es) :
    es.length = is.length ∧ ∀ e ∈ es.dropLast, e &&& permMask = permMask := by
  induction is generalizing a q es with
  | nil =>
    obtain rfl := Option.some.inj htrail
    exact ⟨rfl, by simp⟩
  | cons i is ih =>
    obtain ⟨b, hb, hrest⟩ := Option.bind_eq_some_iff.mp htrail
    obtain ⟨es', htrail', rfl⟩ := Option.map_eq_some_iff.mp hrest
    cases is with
    | nil =>
      obtain rfl := Option.some.inj htrail'
      exact ⟨rfl, by simp⟩
    | cons j js =>
      simp only [List.length_cons] at hlen
      have hne : entry s.ram a i ≠ 0 := by
        intro hzero
        rw [hzero, show next 0 = none from rfl] at hb
        exact absurd hb (by simp)
      have hperms := hm.interior ha (by omega) hne
      have hplace := hm.placement.child ha (by omega) hb
      obtain ⟨hlen', hall⟩ :=
        ih hplace (by simp only [List.length_append, List.length_cons, List.length_nil]; omega)
        htrail'
      have hes : es' ≠ [] := by
        rintro rfl
        simp at hlen'
      refine ⟨congrArg (· + 1) hlen', ?_⟩
      rw [List.dropLast_cons_of_ne_nil hes]
      simp only [List.mem_cons, forall_eq_or_imp]
      exact ⟨hperms, hall⟩

/-- Above the leaf everything is granted, so the leaf says what a walk yields. -/
theorem Space.walk_eq (h : Space own root used s) (v : BitVec 64) :
    walk s.ram root v = (leaf s.ram root v).map fun e => ⟨e, e &&& permMask⟩ := by
  obtain ⟨place, hm⟩ := h.mapped
  rw [leaf, Option.map_map, walk]
  cases htrail : trail next (entry s.ram) root (indices v) with
  | none => rfl
  | some es =>
    obtain ⟨hlen, hperms⟩ :=
      hm.trail_perms (hm.root root (List.mem_singleton_self root)) (by simp [indices]) htrail
    have hne : es ≠ [] := by
      rintro rfl
      simp [indices] at hlen
    have hall : ∀ {l : List (BitVec 64)}, (∀ e ∈ l, e &&& permMask = permMask) →
        l.foldl (· &&& ·) permMask = permMask := by
      intro l hl
      induction l with
      | nil => rfl
      | cons e l ih =>
        rw [List.foldl_cons, BitVec.and_comm, hl e List.mem_cons_self]
        exact ih fun e he => hl e (List.mem_cons_of_mem _ he)
    have hfold : es.foldl (· &&& ·) permMask = permMask &&& es.getLast hne := by
      conv_lhs => rw [← List.dropLast_append_getLast hne]
      rw [List.foldl_append, hall hperms]
      rfl
    rw [Option.map_some, Option.map_some, Function.comp_apply, Translation.ofTrail, hfold,
      List.getLastD_eq_getLast?, List.getLast?_eq_some_getLast hne, Option.getD_some, BitVec.and_comm]

end

/-- A range of addresses that a loop maps page by page. -/
structure Window where
  virt : BitVec 64
  phys : BitVec 64
  length : Nat
  flags : BitVec 64

def Window.pages (w : Window) : Nat := (w.length + 4095) / 4096

def Window.call (root : Nat) (w : Window) (k : Nat) : MapCall where
  root := root
  vaddr := w.virt + BitVec.ofNat 64 (4096 * k)
  paddr := w.phys + BitVec.ofNat 64 (4096 * k)
  flags := w.flags

def Window.calls (root : Nat) (w : Window) : List MapCall := (List.range w.pages).map (w.call root)

/-- `for (i = 0; i < length; i += 4096) MapPage(root, virt + i, phys + i, flags);` -/
def mapWindow (root : Nat) (s : PhysicalMemory) (w : Window) : Option PhysicalMemory :=
  (w.calls root).foldlM mapCall s

theorem foldlM_cons_iff {α β : Type} {f : α → β → Option α} {a c : α} {b : β} {l : List β} :
    (b :: l).foldlM f a = some c ↔ ∃ a', f a b = some a' ∧ l.foldlM f a' = some c := by
  rw [List.foldlM_cons, Option.bind_eq_bind, Option.bind_eq_some_iff]

theorem mapWindows_eq {root : Nat} {s : PhysicalMemory} {ws : List Window} :
    ws.foldlM (mapWindow root) s = (ws.flatMap (Window.calls root)).foldlM mapCall s := by
  induction ws generalizing s with
  | nil => rfl
  | cons w ws ih =>
    rw [List.foldlM_cons, List.flatMap_cons, List.foldlM_append]
    exact bind_congr fun s' => ih

theorem mapWindows_ok {own : Set Nat} {used : List Nat} {root : Nat} {s s' : PhysicalMemory}
    {ws : List Window}
    (h : Space own root used s) (hws : ∀ w ∈ ws, w.flags &&& PageFlags.present = PageFlags.present)
    (hc : ws.foldlM (mapWindow root) s = some s') :
    ∃ used', Extended own root used s used' s' ∧
      ∀ v, leaf s'.ram root v =
        ((lastCall (ws.flatMap (Window.calls root)) root v).map MapCall.entry).or
          (leaf s.ram root v) := by
  rw [mapWindows_eq] at hc
  refine mapCalls_ok h (fun c hc => ?_) hc
  obtain ⟨w, hw, hc⟩ := List.mem_flatMap.mp hc
  obtain ⟨k, -, rfl⟩ := List.mem_map.mp hc
  exact ⟨rfl, hws w hw⟩

-- ---------------------------------------------------------------------------
-- Which pages a list of windows maps
-- ---------------------------------------------------------------------------

def Window.Covers (w : Window) (v : BitVec 64) : Prop :=
  ∃ k < w.pages, SamePage (w.virt + BitVec.ofNat 64 (4096 * k)) v

section
variable {own : Set Nat} {used used' : List Nat} {root : Nat} {s s' : PhysicalMemory}
  {ws : List Window} {w : Window}
  {calls : List MapCall} {c : MapCall} {v v' p m : BitVec 64}

theorem SamePage.trans (h : SamePage v v') (h' : SamePage v' p) : SamePage v p := Eq.trans h h'

theorem Window.Covers.congr (h : w.Covers v) (hv : SamePage v v') : w.Covers v' := by
  obtain ⟨k, hk, hsame⟩ := h
  exact ⟨k, hk, hsame.trans hv⟩

def Window.HighHalf (w : Window) : Prop :=
  2 ^ 47 ≤ w.virt.toNat % 2 ^ 48 ∧ w.virt.toNat % 2 ^ 48 + 4096 * w.pages ≤ 2 ^ 48

instance (w : Window) : Decidable w.HighHalf := inferInstanceAs (Decidable (_ ∧ _))

theorem Window.HighHalf.not_covers (h : w.HighHalf) (hv : v.toNat % 2 ^ 48 < 2 ^ 47) : ¬w.Covers v := by
  rintro ⟨k, hk, hsame⟩
  have hle := h.2
  have hge := h.1
  rw [SamePage, BitVec.toNat_add, BitVec.toNat_ofNat] at hsame
  omega

def Window.Apart (w w' : Window) : Prop :=
  4096 ∣ w.virt.toNat ∧ 4096 ∣ w'.virt.toNat ∧ w.virt.toNat % 2 ^ 48 + 4096 * w.pages ≤ 2 ^ 48 ∧
    w'.virt.toNat % 2 ^ 48 + 4096 * w'.pages ≤ 2 ^ 48 ∧
      (w.virt.toNat % 2 ^ 48 + 4096 * w.pages ≤ w'.virt.toNat % 2 ^ 48 ∨
        w'.virt.toNat % 2 ^ 48 + 4096 * w'.pages ≤ w.virt.toNat % 2 ^ 48)

instance (w w' : Window) : Decidable (w.Apart w') := inferInstanceAs (Decidable (_ ∧ _))

theorem Window.Apart.not_covers {w' : Window} (h : w.Apart w') (hcov : w.Covers v) : ¬w'.Covers v := by
  rintro ⟨j, hj, hsame'⟩
  obtain ⟨k, hk, hsame⟩ := hcov
  obtain ⟨⟨a, ha⟩, ⟨b, hb⟩, h₁, h₂, h₃⟩ := h
  rw [SamePage, BitVec.toNat_add, BitVec.toNat_ofNat] at hsame hsame'
  omega

theorem lastCall_some (h : lastCall calls root v = some c) :
    c ∈ calls ∧ c.root = root ∧ SamePage c.vaddr v := by
  refine ⟨List.mem_reverse.mp (List.mem_of_find?_eq_some h), ?_⟩
  simpa using List.find?_some h

theorem lastCall_isSome : (lastCall calls root v).isSome ↔
      ∃ c ∈ calls, c.root = root ∧ SamePage c.vaddr v := by
  simp [lastCall, List.find?_isSome]

theorem lastCall_windows :
    (lastCall (ws.flatMap (Window.calls root)) root v).isSome ↔ ∃ w ∈ ws, w.Covers v := by
  rw [lastCall_isSome]
  constructor
  · rintro ⟨c, hc, -, hsame⟩
    obtain ⟨w, hw, hc⟩ := List.mem_flatMap.mp hc
    obtain ⟨k, hk, rfl⟩ := List.mem_map.mp hc
    exact ⟨w, hw, k, List.mem_range.mp hk, hsame⟩
  · rintro ⟨w, hw, k, hk, hsame⟩
    exact ⟨w.call root k,
      List.mem_flatMap.mpr ⟨w, hw, List.mem_map.mpr ⟨k, List.mem_range.mpr hk, rfl⟩⟩, rfl, hsame⟩

theorem lastCall_map {α : Type} {f : α → MapCall} (hroot : ∀ a, (f a).root = root) (l : List α) :
    lastCall (l.map f) root v = (l.reverse.find? fun a => SamePage (f a).vaddr v).map f := by
  rw [lastCall, ← List.map_reverse, List.find?_map]
  congr 2
  funext a
  exact decide_eq_decide.mpr (and_iff_right (hroot a))

/-- The entry that a window alone puts on an address's page. -/
def Window.entry (w : Window) (v : BitVec 64) : Option (BitVec 64) :=
  ((List.range w.pages).reverse.find? fun k => SamePage (w.virt + BitVec.ofNat 64 (4096 * k)) v).map
    fun k =>
    (w.phys + BitVec.ofNat 64 (4096 * k)) ||| w.flags

theorem lastCall_window : (lastCall (w.calls root) root v).map MapCall.entry = w.entry v := by
  have hroot : ∀ k, (w.call root k).root = root := fun _ => rfl
  rw [Window.calls, lastCall_map hroot, Option.map_map]
  rfl

theorem Window.entry_isSome : (w.entry v).isSome ↔ w.Covers v := by
  have hwindow : (lastCall (w.calls 0) 0 v).map MapCall.entry = w.entry v := lastCall_window
  rw [← hwindow, Option.isSome_map, lastCall_isSome]
  simp only [Window.calls, List.mem_map, List.mem_range, Window.Covers]
  constructor
  · rintro ⟨c, ⟨k, hk, rfl⟩, -, hsame⟩
    exact ⟨k, hk, hsame⟩
  · rintro ⟨k, hk, hsame⟩
    exact ⟨w.call 0 k, ⟨k, hk, rfl⟩, rfl, hsame⟩

theorem Window.entry_none : w.entry v = none ↔ ¬w.Covers v := by
  rw [← entry_isSome, Option.not_isSome_iff_eq_none]

theorem Window.entry_some {e : BitVec 64} (h : w.entry v = some e) :
    ∃ k < w.pages, SamePage (w.virt + BitVec.ofNat 64 (4096 * k)) v ∧
      (w.phys + BitVec.ofNat 64 (4096 * k)) ||| w.flags = e := by
  obtain ⟨k, hk, rfl⟩ := Option.map_eq_some_iff.mp h
  refine ⟨k, List.mem_range.mp (List.mem_reverse.mp (List.mem_of_find?_eq_some hk)), ?_, rfl⟩
  simpa using List.find?_some hk

theorem lastCall_flatMap :
    (lastCall (ws.flatMap (Window.calls root)) root v).map MapCall.entry =
      ws.foldr (fun w later => later.or (w.entry v)) none := by
  induction ws with
  | nil => rfl
  | cons w ws ih =>
    rw [List.flatMap_cons, lastCall_append, Option.map_or, ih, lastCall_window]
    rfl

theorem Space.walk_congr (h : Space own root used s) (h' : Space own root used' s')
    (hleaf : leaf s'.ram root v = leaf s.ram root v) : walk s'.ram root v = walk s.ram root v := by
  rw [h'.walk_eq, h.walk_eq, hleaf]

theorem leaf_congr {ram ram' : Mem} (h : walk ram' root v = walk ram root v) :
    leaf ram' root v = leaf ram root v := by
  rw [leaf, leaf, h]

theorem and_of_aligned (hp : 4096 ∣ p.toNat) (hm : m.toNat < 4096) : p &&& m = 0 := by
  refine BitVec.eq_of_toNat_eq (Nat.eq_of_testBit_eq fun i => ?_)
  obtain ⟨q, hq⟩ := hp
  rw [BitVec.toNat_and, Nat.testBit_and, hq, show 4096 = 2 ^ 12 from rfl, Nat.testBit_two_pow_mul]
  by_cases hi : 12 ≤ i
  · rw [Nat.testBit_lt_two_pow (x := m.toNat)
      (lt_of_lt_of_le hm (Nat.pow_le_pow_right (n := 2) (by decide) hi))]
    simp
  · simp [hi]

end

-- ---------------------------------------------------------------------------
-- When mapping succeeds
-- ---------------------------------------------------------------------------

section
variable {own : Set Nat} {used : List Nat} {root last n : Nat} {s s' : PhysicalMemory}
  {calls : List MapCall}

theorem Stock.of_sane {first : Nat} (h : Sane own s)
    (hclear : ∀ i, first ≤ i → i < last → s.bitmap.get s.ram i = false) (hfirst : first ≠ 0)
    (hlast : last ≤ s.limit) :
    Stock own { s with lastI := first } last := by
  have hspace := h.inSpace
  refine ⟨hclear, fun i h₁ h₂ => ⟨by omega, ?_, Set.disjoint_left.mpr fun x hx hown => ?_⟩, hfirst,
    hlast, h.bitmap, ?_⟩
  · unfold limit at hlast
    omega
  · rw [frame, mem_span] at hx
    have hpage : x / 4096 = i := by omega
    exact h.apart x ⟨by omega, hpage ▸ hclear i h₁ h₂⟩ hown
  · show s.highestAddr < 2 ^ 64
    omega

theorem Stock.allocated (h : Stock own s last) (hs : Sane own s) (hn : 1 ≤ n)
    (hlast : s.lastI + n ≤ last) :
    ∃ p s', s.alloc n = some (p, s') ∧ Allocated own s s' p n ∧ Stock own s' last ∧
      s'.lastI = s.lastI + n := by
  obtain ⟨s', halloc, hcursor, hstock, -⟩ := h.alloc hn hlast
  exact ⟨_, s', halloc, hs.alloc hn halloc, hstock, hcursor⟩

theorem Space.stock_unused (h : Space own root used s) (hstock : Stock own s last) :
    ∀ i, s.lastI ≤ i → i < last → 4096 * i ∉ used := by
  intro i h₁ h₂ hmem
  have hheld := (h.held (4096 * i) (frame_subset_tables hmem ⟨le_refl _, by omega⟩)).2
  rw [Nat.mul_div_cancel_left i (by decide), hstock.clear i h₁ h₂] at hheld
  exact absurd hheld (by decide)

theorem mapCalls_isSome (h : Space own root used s) (hstock : Stock own s last)
    (hcalls : ∀ c ∈ calls, c.root = root ∧ c.flags &&& PageFlags.present = PageFlags.present)
    (hlast : s.lastI + 3 * calls.length ≤ last) :
    ∃ s', calls.foldlM mapCall s = some s' ∧ Stock own s' last ∧
      s'.lastI ≤ s.lastI + 3 * calls.length := by
  induction calls generalizing s used with
  | nil => exact ⟨s, rfl, hstock, by simp⟩
  | cons c calls ih =>
    rw [List.length_cons] at hlast ⊢
    obtain ⟨rfl, hflags⟩ := hcalls c List.mem_cons_self
    obtain ⟨place, hm⟩ := h.mapped
    obtain ⟨s₁, new, hmap, -, -, hstock₁, hle₁, -⟩ := mapPage_isSome c.vaddr c.paddr c.flags hm
      (List.mem_singleton_self c.root) hstock (h.stock_unused hstock) h.nodup (by omega)
    obtain ⟨hext, -⟩ := h.mapPage hflags hmap
    obtain ⟨s', hrest, hstock', hle⟩ :=
      ih hext.space hstock₁ (fun c hc => hcalls c (List.mem_cons_of_mem _ hc))
      (by omega)
    refine ⟨s', ?_, hstock', by omega⟩
    rw [List.foldlM_cons, mapCall, hmap]
    exact hrest

theorem mapWindows_isSome {ws : List Window} (h : Space own root used s) (hstock : Stock own s last)
    (hws : ∀ w ∈ ws, w.flags &&& PageFlags.present = PageFlags.present)
    (hlast : s.lastI + 3 * (ws.map Window.pages).sum ≤ last) :
    ∃ s', ws.foldlM (mapWindow root) s = some s' ∧ Stock own s' last ∧
      s'.lastI ≤ s.lastI + 3 * (ws.map Window.pages).sum := by
  have hlength : (ws.flatMap (Window.calls root)).length = (ws.map Window.pages).sum := by
    rw [List.length_flatMap]
    congr 2
    funext w
    rw [Window.calls, List.length_map, List.length_range]
  rw [mapWindows_eq, ← hlength]
  refine mapCalls_isSome h hstock (fun c hc => ?_) (hlength ▸ hlast)
  obtain ⟨w, hw, hc⟩ := List.mem_flatMap.mp hc
  obtain ⟨k, -, rfl⟩ := List.mem_map.mp hc
  exact ⟨rfl, hws w hw⟩

end

end VirtualMemory

end LimineOS
