import LimineOS.Mm.HeapOps
import Mathlib.Data.List.Chain

/-!
# Allocating a block

Between two calls no two free blocks are neighbours, each free block is in the list
for its size, and `l_completePages` counts the regions that are one free block, of
which the heap keeps five for each list (`Balanced`).
-/

namespace LimineOS

open ByteMemory Fueled LinkedList Tiling

open BoundaryTag (sizeof noIndex)

namespace Heap

abbrev Alternate (P : Nat → Prop) (l : List Nat) : Prop := l.IsChain fun a b => P a ∨ P b

structure Balanced (s : Heap) (R : List Region) (L : Nat → List Nat) : Prop where
  coalesced : ∀ r ∈ R, Alternate (fun a => s.get .index a = noIndex) r.tags
  classed : ∀ i, ∀ a ∈ L i, i = exponent (s.get .realSize a - sizeof)
  counted : ∀ i, s.completePages i = (L i).countP fun a => s.Whole a
  few : ∀ i, s.completePages i ≤ maxComplete

structure Wf (own : Set Nat) (s : Heap) (R : List Region) (L : Nat → List Nat) :
    Prop extends Shaped own s R L where
  balanced : Balanced s R L
  unused : s.initialized = false → R = []

section
variable {own U : Set Nat} {s s' s'' s₀ : Heap} {R R' R₀ R₁ R₂ : List Region} {r : Region}
  {L L' : Nat → List Nat}
  {a b c i t base len size p : Nat} {A B l : List Nat}

theorem countP_erase_of_not {P Q : Nat → Prop} [DecidablePred P] [DecidablePred Q] (hc : c ∈ l)
    (hl : l.Nodup) (hP : ¬P c)
    (hsame : ∀ a ∈ l, a ≠ c → (Q a ↔ P a)) :
    (l.erase c).countP (fun a => Q a) = l.countP fun a => P a := by
  have hperm := List.perm_cons_erase hc
  have hrest : (l.erase c).countP (fun a => Q a) = (l.erase c).countP fun a => P a :=
    List.countP_congr fun a ha => by
      rw [hl.mem_erase_iff] at ha
      simpa using hsame a ha.2 ha.1
  rw [hrest, hperm.countP_eq, List.countP_cons_of_neg (by simpa using hP)]

-- ---------------------------------------------------------------------------
-- Neighbours
-- ---------------------------------------------------------------------------

theorem alternate_middle {P : Nat → Prop} : Alternate P (A ++ t :: B) ↔
    Alternate P A ∧ (∀ a ∈ A.getLast?, P a ∨ P t) ∧ (∀ b ∈ B.head?, P t ∨ P b) ∧ Alternate P B := by
  rw [Alternate, List.isChain_append, List.isChain_cons]
  simp only [List.head?_cons, Option.mem_some_iff, forall_eq']
  tauto

theorem Alternate.mono {P Q : Nat → Prop} (h : Alternate P l) (hPQ : ∀ a ∈ l, P a → Q a) :
    Alternate Q l := by
  refine List.IsChain.imp_of_mem_imp ?_ h
  intro a b ha hb hab
  exact hab.imp (hPQ a ha) (hPQ b hb)

-- ---------------------------------------------------------------------------
-- malloc
-- ---------------------------------------------------------------------------

theorem trim_remainder {real rest : Nat} (hreal : real < 2 ^ 32) (hroom : size + sizeof ≤ real)
    (hrest : rest = u32 (subU64 (subU64 real size) (sizeof * 2))) (hlt : rest < 2 ^ 31) :
    size + 2 * sizeof ≤ real := by
  have hs : sizeof = 48 := rfl
  rw [hs] at hroom hrest ⊢
  have hle : size ≤ real := by omega
  rw [subU64_of_le (by omega) hle, subU64, u32] at hrest
  omega

theorem Shaped.ne_used (h : Shaped own s R L) (ht : t ∈ Used s R) (ha : a ∈ L i) :
    a ∈ tags R ∧ a ≠ t := by
  obtain ⟨haR, hi, hne⟩ := (h.listed.mem i a).mp ha
  refine ⟨haR, ?_⟩
  rintro rfl
  exact hne (hi.symm.trans ht.2)

theorem SplitOff.balanced
    (h : SplitOff own s (R₁ ++ ⟨base, len, A ++ t :: B⟩ :: R₂)
      (R₁ ++ ⟨base, len, A ++ t :: c :: B⟩ :: R₂) L t c i s')
    (hs : Shaped own s (R₁ ++ ⟨base, len, A ++ t :: B⟩ :: R₂) L)
    (hb : Balanced s (R₁ ++ ⟨base, len, A ++ t :: B⟩ :: R₂) L)
    (ht : t ∈ Used s (R₁ ++ ⟨base, len, A ++ t :: B⟩ :: R₂))
    (hB : ∀ b ∈ B.head?, s.get .index b = noIndex) :
    Balanced s' (R₁ ++ ⟨base, len, A ++ t :: c :: B⟩ :: R₂) (Function.update L i (c :: L i)) where
  coalesced r hr := by
    have hkept : ∀ q ∈ R₁ ++ ⟨base, len, A ++ t :: B⟩ :: R₂,
        Alternate (fun a => s'.get .index a = noIndex) q.tags :=
      fun q hq => (hb.coalesced q hq).mono fun a ha hno => (h.index a ⟨q, hq, ha⟩).trans hno
    rcases List.mem_append.mp hr with hr | hr
    · exact hkept r (by simp [hr])
    rcases List.mem_cons.mp hr with rfl | hr
    · obtain ⟨hA, hlast, -, hB'⟩ := alternate_middle.mp (hkept ⟨base, len, A ++ t :: B⟩ (by simp))
      have htno : s'.get .index t = noIndex := (h.index t ht.1).trans ht.2
      refine alternate_middle.mpr
        ⟨hA, hlast, fun _ _ => .inl htno, List.isChain_cons.mpr ⟨fun b hbB => .inr ?_, hB'⟩⟩
      have hbR : b ∈ Heap.tags (R₁ ++ ⟨base, len, A ++ t :: B⟩ :: R₂) :=
        mem_tags_middle.mpr
          (.inr (List.mem_append_right A (List.mem_cons_of_mem t (List.mem_of_head? hbB))))
      exact (h.index b hbR).trans (hB b hbB)
    · exact hkept r (by simp [hr])
  classed j a ha := by
    have hold : a ∈ L j → j = exponent (s'.get .realSize a - sizeof) := fun ha => by
      rw [h.realSize a (hs.ne_used ht ha).1 (hs.ne_used ht ha).2]
      exact hb.classed j a ha
    rcases eq_or_ne j i with rfl | hj
    · rw [Function.update_self] at ha
      rcases List.mem_cons.mp ha with rfl | ha
      · exact h.rest_realSize
      · exact hold ha
    · rw [Function.update_of_ne hj] at ha
      exact hold ha
  counted j := by
    have hcount : (L j).countP (fun a => s'.Whole a) = (L j).countP fun a => s.Whole a :=
      List.countP_congr fun a ha => by
      simpa using h.whole a (hs.ne_used ht ha).1 (hs.ne_used ht ha).2
    rw [h.completePages, hb.counted j, ← hcount]
    rcases eq_or_ne j i with rfl | hj
    · rw [Function.update_self, List.countP_cons_of_neg (by simpa using h.rest_not_whole)]
    · rw [Function.update_of_ne hj]
  few := by
    rw [h.completePages]
    exact hb.few

theorem Balanced.congr (hb : Balanced s R L) (hs : Shaped own s R L)
    (hget : ∀ f, f ≠ .size → ∀ a ∈ tags R, s'.get f a = s.get f a)
    (hcount : s'.completePages = s.completePages) :
    Balanced s' R L where
  coalesced r hr := (hb.coalesced r hr).mono fun a ha hno =>
    (hget .index (by decide) a ⟨r, hr, ha⟩).trans hno
  classed i a ha := by
    rw [hget .realSize (by decide) a ((hs.listed.mem i a).mp ha).1]
    exact hb.classed i a ha
  counted i := by
    rw [hcount, hb.counted i]
    refine congrArg _ (List.countP_congr fun a ha => ?_)
    have haR := ((hs.listed.mem i a).mp ha).1
    have hwhole : s.Whole a ↔ s'.Whole a := by
      rw [Whole, Whole, hget _ (by decide) a haR, hget _ (by decide) a haR]
    simpa using hwhole
  few := by
    rw [hcount]
    exact hb.few

structure Trimmed (own : Set Nat) (s : Heap) (R : List Region) (L : Nat → List Nat) (t size : Nat)
    (s' : Heap)
    (R' : List Region) (L' : Nat → List Nat) : Prop where
  shaped : Shaped own s' R' L'
  balanced : Balanced s' R' L'
  used : Used s' R' = Used s R
  spares : Spares own (Used s R \ {t}) s R s' R'
  grow : PhysicalMemory.Grow own (territory R) s.pmm s'.pmm
  room : size + sizeof ≤ s'.get .realSize t
  extents : R'.map Region.extent = R.map Region.extent
  lists : L' = L ∨ ∃ c, L' = Function.update L (exponent (s.get .realSize t - sizeof - size - sizeof))
    (c :: L (exponent (s.get .realSize t - sizeof - size - sizeof)))
  size : s'.get .size t = size
  initialized : s'.initialized = s.initialized

theorem Shaped.trim (h : Shaped own s (R₁ ++ ⟨base, len, A ++ t :: B⟩ :: R₂) L)
    (hb : Balanced s (R₁ ++ ⟨base, len, A ++ t :: B⟩ :: R₂) L)
    (ht : t ∈ Used s (R₁ ++ ⟨base, len, A ++ t :: B⟩ :: R₂))
    (hB : ∀ b ∈ B.head?, s.get .index b = noIndex)
    (hroom : size + sizeof ≤ s.get .realSize t) :
    ∃ R' L', Trimmed own s (R₁ ++ ⟨base, len, A ++ t :: B⟩ :: R₂) L t size (s.trim t size) R' L' := by
  have hreal : s.get .realSize t < 2 ^ 32 := get_lt s .realSize t
  have hsize : size < 2 ^ 32 := by omega
  obtain ⟨hshaped, hget, hspares, hgrow⟩ := h.setSize ht.1 hsize
  have hother : ∀ f, f ≠ .size → ∀ a ∈ tags (R₁ ++ ⟨base, len, A ++ t :: B⟩ :: R₂),
      (s.set .size t size).get f a = s.get f a :=
        fun f hf a ha => by rw [hget f a ha, if_neg fun hh => hf hh.1]
  have hbal := hb.congr h hother rfl
  have hrealt := hother .realSize (by decide) t ht.1
  have hsizet : (s.set .size t size).get .size t = size := by rw [hget _ t ht.1, if_pos ⟨rfl, rfl⟩]
  have hused : Used (s.set .size t size) (R₁ ++ ⟨base, len, A ++ t :: B⟩ :: R₂) =
      Used s (R₁ ++ ⟨base, len, A ++ t :: B⟩ :: R₂) := by
    ext a
    exact and_congr_right fun ha => by rw [hother .index (by decide) a ha]
  rw [Heap.trim]
  split
  · rename_i hcond
    have hroom' := trim_remainder hreal hroom rfl (hrealt ▸ hcond.2.1)
    have hso := hshaped.splitTag (hused ▸ ht) (by omega)
    have hB' : ∀ b ∈ B.head?, (s.set .size t size).get .index b = noIndex := fun b hbB => by
      have hbR : b ∈ tags (R₁ ++ ⟨base, len, A ++ t :: B⟩ :: R₂) :=
        mem_tags_middle.mpr
          (.inr (List.mem_append_right A (List.mem_cons_of_mem t (List.mem_of_head? hbB))))
      exact (hother .index (by decide) b hbR).trans (hB b hbB)
    refine ⟨_, _, hso.shaped, hso.balanced hshaped hbal (hused ▸ ht) hB', hso.used.trans hused,
      hspares.trans (hused ▸ hso.spares), hgrow.trans hso.grow fun x hx _ => hx, ?_, by
        simp [Region.extent],
      .inr ⟨t + sizeof + (s.set .size t size).get .size t, ?_⟩, hso.size.trans hsizet, hso.initialized⟩
    · rw [hso.room, hsizet, Nat.add_comm]
    · rw [hrealt, hsizet]
  · exact ⟨_, L, hshaped, hbal, hused, hspares, hgrow, hrealt ▸ hroom, rfl, .inl rfl, hsizet, rfl⟩

theorem Shaped.countComplete {d : Int} (h : Shaped own s R L) : Shaped own (s.countComplete i d) R L :=
  ⟨⟨h.sane, h.held, h.tiled⟩, h.listed⟩

theorem countComplete_self {d : Int} : (s.countComplete i d).completePages i = s.completePages i + d :=
  Function.update_self ..

theorem countComplete_of_ne {d : Int} {j : Nat} (h : j ≠ i) :
    (s.countComplete i d).completePages j = s.completePages j :=
  Function.update_of_ne h ..

theorem countP_whole_countComplete {d : Int} :
    (l.countP fun a => (s.countComplete i d).Whole a) = l.countP fun a => s.Whole a := rfl

theorem Spares.countComplete {d : Int} (h : Spares own U s R s' R') :
    Spares own U s R (s'.countComplete i d) R' :=
  ⟨h.size, h.realSize, h.content, h.outside, h.others, h.limit⟩

theorem Removed.whole (h : Removed own s R L c i s') (ha : a ∈ tags R) : s'.Whole a ↔ s.Whole a := by
  rw [Whole, Whole, h.unlinked.rest _ (by decide) (by decide) (by decide) a ha,
    h.unlinked.rest _ (by decide) (by decide) (by decide) a ha]

theorem Removed.coalesced (h : Removed own s R L c i s') (hb : Balanced s R L) (hr : r ∈ R) :
    Alternate (fun a => s'.get .index a = noIndex) r.tags := by
  refine (hb.coalesced r hr).mono fun a ha hno => ?_
  rw [h.unlinked.index a ⟨r, hr, ha⟩]
  split
  · rfl
  · exact hno

structure Claimed (own : Set Nat) (s : Heap) (R : List Region) (L : Nat → List Nat) (c i : Nat)
    (s' : Heap) : Prop where
  shaped : Shaped own s' R (Function.update L i ((L i).erase c))
  balanced : Balanced s' R (Function.update L i ((L i).erase c))
  used : Used s' R = insert c (Used s R)
  spares : Spares own (Used s R) s R s' R
  grow : PhysicalMemory.Grow own (territory R) s.pmm s'.pmm
  realSize : ∀ a ∈ tags R, s'.get .realSize a = s.get .realSize a
  index : ∀ a ∈ tags R, s.get .index a = noIndex → s'.get .index a = noIndex
  initialized : s'.initialized = s.initialized

theorem Shaped.claim (h : Shaped own s R L) (hb : Balanced s R L) (hc : c ∈ L i) :
    Claimed own s R L c i (s.claim c i) := by
  rw [Heap.claim]
  have hrem := h.removeTag hc
  generalize s.removeTag c = u at hrem ⊢
  have hnd := h.listed.nodup i
  have hin : ∀ j, ∀ a ∈ L j, a ∈ tags R := fun j a ha => ((h.listed.mem j a).mp ha).1
  have hcount : ∀ j, (L j).countP (fun a => u.Whole a) = (L j).countP fun a => s.Whole a := fun j =>
    List.countP_congr fun a ha => by simpa using hrem.whole (hin j a ha)
  have hindex : ∀ a ∈ tags R, s.get .index a = noIndex → u.get .index a = noIndex := fun a ha hno => by
    rw [hrem.unlinked.index a ha]
    split
    · rfl
    · exact hno
  have hreal : ∀ a ∈ tags R, u.get .realSize a = s.get .realSize a :=
    hrem.unlinked.rest _ (by decide) (by decide) (by decide)
  have hclassed : ∀ j, ∀ a ∈ Function.update L i ((L i).erase c) j,
      j = exponent (u.get .realSize a - sizeof) := fun j a ha => by
    have ha' : a ∈ L j := by
      rcases eq_or_ne j i with rfl | hj
      · rw [Function.update_self] at ha
        exact List.mem_of_mem_erase ha
      · rwa [Function.update_of_ne hj] at ha
    rw [hreal a (hin j a ha')]
    exact hb.classed j a ha'
  have hperm := List.perm_cons_erase hc
  split
  · rename_i hwhole
    refine ⟨hrem.shaped.countComplete,
      ⟨fun r hr => hrem.coalesced hb hr, hclassed, fun j => ?_, fun j => ?_⟩, hrem.used,
      hrem.spares.countComplete, hrem.grow, hreal, hindex, hrem.initialized⟩
    · rcases eq_or_ne j i with rfl | hj
      · have hmore : (L j).countP (fun a => u.Whole a) =
            ((L j).erase c).countP (fun a => u.Whole a) + 1 := by
          rw [hperm.countP_eq, List.countP_cons_of_pos (by simpa using hwhole)]
        rw [countComplete_self, countP_whole_countComplete, Function.update_self,
          hrem.completePages, hb.counted j, ← hcount j, hmore]
        omega
      · rw [countComplete_of_ne hj, countP_whole_countComplete, Function.update_of_ne hj,
          hrem.completePages, hb.counted j, ← hcount j]
    · have hfew := hb.few j
      rcases eq_or_ne j i with rfl | hj
      · rw [countComplete_self, hrem.completePages]
        omega
      · rwa [countComplete_of_ne hj, hrem.completePages]
  · rename_i hwhole
    refine ⟨hrem.shaped, ⟨fun r hr => hrem.coalesced hb hr, hclassed, fun j => ?_, ?_⟩, hrem.used,
      hrem.spares, hrem.grow, hreal, hindex, hrem.initialized⟩
    · rw [hrem.completePages, hb.counted j, ← hcount j]
      rcases eq_or_ne j i with rfl | hj
      · rw [Function.update_self, hperm.countP_eq, List.countP_cons_of_neg (by simpa using hwhole)]
      · rw [Function.update_of_ne hj]
    · rw [hrem.completePages]
      exact hb.few

theorem Wf.setUp (h : Wf own s R L) : Wf own s.setUp R L := by
  rw [Heap.setUp]
  split
  · exact h
  · rename_i hinit
    have hR := h.unused (by simpa using hinit)
    have hL : ∀ i, L i = [] := fun i => List.eq_nil_iff_forall_not_mem.mpr fun a ha => by
      obtain ⟨r, hr, -⟩ := ((h.listed.mem i a).mp ha).1
      rw [hR] at hr
      exact absurd hr List.not_mem_nil
    refine ⟨⟨⟨h.sane, h.held, h.tiled⟩,
      ⟨h.listed.mem, h.listed.linked, h.listed.nodup, fun i => ?_, h.listed.idle, h.listed.lt⟩⟩,
        ⟨h.balanced.coalesced, h.balanced.classed, fun i => ?_, fun i => ?_⟩, fun hfalse => ?_⟩
    · rw [hL i]
      rfl
    · rw [hL i]
      rfl
    · show (0 : Int) ≤ maxComplete
      decide
    · exact absurd hfalse (by simp)

theorem setUp_initialized : s.setUp.initialized = true := by
  rw [Heap.setUp]
  split
  · assumption
  · rfl

theorem setUp_pmm : s.setUp.pmm = s.pmm := by
  rw [Heap.setUp]
  split <;> rfl

def Fits (s : Heap) (size a : Nat) : Prop := subU64 (s.get .realSize a) sizeof ≥ u64 (size + sizeof)

def OnList (s : Heap) (i a : Nat) : Prop :=
  Meets (fun a => link (s.get .next a)) (link (s.freePages i)) a

theorem Wf.onList_iff (h : Wf own s R L) : s.OnList i t ↔ t ∈ L i :=
  ((h.listed.head i).symm ▸ (h.listed.linked i).linked).meets_iff

theorem search_ends (hl : Linked (fun a => link (s.get .next a)) (link p) l) :
    Ends (s.search size p) fun tag => tag = 0 ∧ (∀ a ∈ l, ¬s.Fits size a) ∨
      tag ∈ l ∧ s.Fits size tag := by
  induction l generalizing p with
  | nil =>
    have h0 : p = 0 := link_eq_none.mp hl
    exact ends_iterate_inr (by rw [searchStep, if_pos h0]) (.inl ⟨rfl, by simp⟩)
  | cons a l ih =>
    obtain ⟨rfl, ha0⟩ := link_eq_some.mp hl.1
    by_cases hfit : s.Fits size p
    · refine ends_iterate_inr (by rw [searchStep, if_neg ha0]; exact if_pos hfit)
        (.inr ⟨List.mem_cons_self, hfit⟩)
    · refine ends_iterate_inl (by rw [searchStep, if_neg ha0]; exact if_neg hfit) ((ih hl.2).mono ?_)
      rintro tag (⟨h0, hno⟩ | ⟨hmem, hfits⟩)
      · exact .inl ⟨h0, fun b hb => (List.mem_cons.mp hb).elim (fun heq => heq ▸ hfit) (hno b)⟩
      · exact .inr ⟨List.mem_cons_of_mem p hmem, hfits⟩

structure Malloced (own : Set Nat) (s : Heap) (R : List Region) (size t : Nat) (s' : Heap)
    (R' : List Region)
    (L' : Nat → List Nat) : Prop where
  wf : Wf own s' R' L'
  fresh : t ∉ Used s R
  used : Used s' R' = insert t (Used s R)
  spares : Spares own (Used s R) s R s' R'
  grow : PhysicalMemory.Grow own (territory R) s.pmm s'.pmm
  grown : ∃ b, territory R' ⊆ territory R ∪ span b (4096 * pagesFor (size + sizeof))
  room : size + sizeof ≤ s'.get .realSize t
  size : s'.get .size t = size
  initialized : s'.initialized = true

theorem Wf.malloc_found (h : Wf own s R L) (hinit : s.initialized = true) (ht : t ∈ L i)
    (hfit : s.Fits size t)
    (hsize : size + sizeof + 4096 ≤ 2 ^ 32) :
    ∃ R' L', Malloced own s R size t ((s.claim t i).trim t size) R' L' := by
  have hcl := h.toShaped.claim h.balanced ht
  obtain ⟨htR, hti, hi⟩ := (h.listed.mem i t).mp ht
  obtain ⟨r, hr, htr⟩ := htR
  obtain ⟨R₁, R₂, rfl⟩ := List.append_of_mem hr
  obtain ⟨A, B, hAB⟩ := List.append_of_mem htr
  obtain ⟨base, len, tags⟩ := r
  obtain rfl : tags = A ++ t :: B := hAB
  have hfresh : t ∉ Used s (R₁ ++ ⟨base, len, A ++ t :: B⟩ :: R₂) := fun hu => hi (hti.symm.trans hu.2)
  -- the block was free, so its neighbour is not
  have hB : ∀ b ∈ B.head?, (s.claim t i).get .index b = noIndex := fun b hb => by
    have hmid :=
      (alternate_middle.mp (h.balanced.coalesced ⟨base, len, A ++ t :: B⟩ (by simp))).2.2.1 b hb
    have hbR : b ∈ Heap.tags (R₁ ++ ⟨base, len, A ++ t :: B⟩ :: R₂) :=
      mem_tags_middle.mpr
        (.inr (List.mem_append_right A (List.mem_cons_of_mem t (List.mem_of_head? hb))))
    exact hcl.index b hbR (hmid.resolve_left fun hno => hi (hti.symm.trans hno))
  have hroom : size + sizeof ≤ (s.claim t i).get .realSize t := by
    have hleast := (h.tiled.ok _ hr).tiles.least_le htr
    have hreal : s.get .realSize t < 2 ^ 32 := get_lt s .realSize t
    rw [hcl.realSize t ⟨_, hr, htr⟩]
    rw [Fits, subU64_of_le (by omega) hleast, u64_of_lt (by omega)] at hfit
    omega
  obtain ⟨R', L', htrim⟩ := hcl.shaped.trim hcl.balanced (hcl.used ▸ Set.mem_insert t _) hB hroom
  have hinit' := (htrim.initialized.trans hcl.initialized).trans hinit
  refine ⟨R', L',
    ⟨htrim.shaped, htrim.balanced, fun hno => absurd (hno.symm.trans hinit') (by decide)⟩, hfresh,
    htrim.used.trans hcl.used, hcl.spares.trans (htrim.spares.mono fun a ha => ?_),
    hcl.grow.trans htrim.grow fun x hx _ => hx,
    ⟨0, territory_congr htrim.extents ▸ Set.subset_union_left⟩, htrim.room, htrim.size, hinit'⟩
  exact ⟨hcl.used ▸ Set.mem_insert_of_mem t ha, fun heq : a = t => hfresh (heq ▸ ha)⟩

theorem Fresh.balanced (h : Fresh own s R L size t len s') (hs : Shaped own s R L)
    (hb : Balanced s R L) :
    Balanced s' (⟨t, len, [t]⟩ :: R) L where
  coalesced r hr := by
    rcases List.mem_cons.mp hr with rfl | hr
    · exact .singleton t
    · exact (hb.coalesced r hr).mono fun a ha hno => (h.get .index a ⟨r, hr, ha⟩).trans hno
  classed i a ha := by
    rw [h.get .realSize a ((hs.listed.mem i a).mp ha).1]
    exact hb.classed i a ha
  counted i := by
    rw [h.completePages, hb.counted i]
    refine congrArg _ (List.countP_congr fun a ha => ?_)
    have haR := ((hs.listed.mem i a).mp ha).1
    have hwhole : s.Whole a ↔ s'.Whole a := by rw [Whole, Whole, h.get _ a haR, h.get _ a haR]
    simpa using hwhole
  few := by
    rw [h.completePages]
    exact hb.few

theorem Wf.malloc_fresh (h : Wf own s R L) (hinit : s.initialized = true)
    (hsize : size + sizeof + 4096 ≤ 2 ^ 32)
    (hnew : s.allocateNewTag (u32 size) = some (t, s')) :
    ∃ R' L', Malloced own s R size t (s'.trim t size) R' L' ∧
      R'.map Region.extent = (t, 4096 * pagesFor (size + sizeof)) :: R.map Region.extent ∧
      (L' = L ∨
        ∃ c, L' = Function.update L
          (exponent (4096 * pagesFor (size + sizeof) - sizeof - size - sizeof))
        (c :: L (exponent (4096 * pagesFor (size + sizeof) - sizeof - size - sizeof)))) := by
  have hu32 : u32 size = size := Nat.mod_eq_of_lt (by omega)
  rw [hu32] at hnew
  have hfr := h.toShaped.allocateNewTag hsize hnew
  have hfresh : t ∉ Used s R := fun hu => hfr.not_mem hu.1
  have hshaped : Shaped own s' ([] ++ ⟨t, 4096 * pagesFor (size + sizeof), [] ++ t :: []⟩ :: R) L :=
    hfr.shaped
  obtain ⟨R', L', htrim⟩ :=
    hshaped.trim (hfr.balanced h.toShaped h.balanced) (hfr.used ▸ Set.mem_insert t _) (by simp)
    (hfr.realSize.symm ▸ hfr.room)
  have hinit' := (htrim.initialized.trans hfr.initialized).trans hinit
  refine ⟨R', L',
    ⟨⟨htrim.shaped, htrim.balanced, fun hno => absurd (hno.symm.trans hinit') (by decide)⟩, hfresh,
      htrim.used.trans hfr.used, hfr.spares.trans (htrim.spares.mono fun a ha => ?_),
    hfr.grow.trans htrim.grow fun x hx hheld => ?_, ⟨t, ?_⟩, htrim.room, htrim.size, hinit'⟩,
    htrim.extents, hfr.realSize ▸ htrim.lists⟩
  · exact ⟨hfr.used ▸ Set.mem_insert_of_mem t ha, fun heq : a = t => hfresh (heq ▸ ha)⟩
  · obtain ⟨r, hr, hxr⟩ := hx
    rcases List.mem_cons.mp hr with rfl | hr
    · exact absurd (hfr.free x hxr) hheld.not_free
    · exact ⟨r, hr, hxr⟩
  · rw [territory_congr htrim.extents]
    rintro x ⟨r, hr, hx⟩
    rcases List.mem_cons.mp hr with rfl | hr
    · exact .inr hx
    · exact .inl ⟨r, hr, hx⟩

theorem get_setUp : s.setUp.get = s.get := by
  funext f a
  rw [Heap.get, setUp_pmm]
  rfl

theorem Malloced.of_setUp (h : Malloced own s.setUp R size t s' R' L') :
    Malloced own s R size t s' R' L' := by
  have hused : Used s.setUp R = Used s R := by rw [Used, Used, get_setUp]
  obtain ⟨hsize, hreal, hcontent, hout, hothers, hlimit⟩ := h.spares
  rw [hused] at hsize hreal hcontent
  rw [setUp_pmm] at hcontent hout hothers hlimit
  rw [get_setUp] at hsize hreal
  refine ⟨h.wf, hused ▸ h.fresh, hused ▸ h.used,
    ⟨hsize, hreal, fun a ha x hx => hcontent a ha x ?_, hout, hothers, hlimit⟩, setUp_pmm ▸ h.grow,
    h.grown, h.room, h.size, h.initialized⟩
  rwa [content, get_setUp]

def Found (s : Heap) (L : Nat → List Nat) (size tag : Nat) : Prop :=
  tag = 0 ∧ (∀ a ∈ L (exponent (u32 size)), ¬s.Fits size a) ∨
    tag ∈ L (exponent (u32 size)) ∧ s.Fits size tag

theorem Wf.search_ends (h : Wf own s R L) :
    Ends (s.search size (s.freePages (exponent (u32 size)))) (Found s L size) :=
  Heap.search_ends ((h.listed.head _).symm ▸ (h.listed.linked _).linked)

theorem Wf.malloc_safe (h : Wf own s R L) (hsize : size + sizeof + 4096 ≤ 2 ^ 32) :
    Safe (s.malloc size) fun r => ∃ t s' R' L',
      r = (t + sizeof, s') ∧ Malloced own s R size t s' R' L' := by
  have hs := h.setUp
  refine Safe.bind hs.search_ends.safe_iterate fun tag htag => ?_
  rcases htag with ⟨rfl, -⟩ | ⟨hmem, hfit⟩
  · rw [if_pos rfl]
    refine Safe.bind (P := fun r => s.setUp.allocateNewTag (u32 size) = some r) (fun _ _ hr => hr) ?_
    rintro ⟨t, s'⟩ hr
    obtain ⟨R', L', hm, -⟩ := hs.malloc_fresh setUp_initialized hsize hr
    exact safe_pure ⟨t, _, R', L', rfl, hm.of_setUp⟩
  · rw [if_neg (hs.spaced.ne_zero tag ((hs.listed.mem _ _).mp hmem).1)]
    obtain ⟨R', L', hm⟩ := hs.malloc_found setUp_initialized hmem hfit hsize
    exact safe_pure ⟨tag, _, R', L', rfl, hm.of_setUp⟩

theorem Wf.malloc_ends (h : Wf own s R L) (hsize : size + sizeof + 4096 ≤ 2 ^ 32)
    (hmem : (∃ a ∈ L (exponent size), s.Fits size a) ∨
      (s.pmm.alloc (pagesFor (size + sizeof))).isSome) :
    Ends (s.malloc size) fun r => ∃ t s' R' L',
      r = (t + sizeof, s') ∧ Malloced own s R size t s' R' L' := by
  have hs := h.setUp
  have hu32 : u32 size = size := Nat.mod_eq_of_lt (by omega)
  have hu32' : u32 (size + sizeof) = size + sizeof := Nat.mod_eq_of_lt (by omega)
  refine Ends.bind hs.search_ends fun tag htag => ?_
  rcases htag with ⟨rfl, hno⟩ | ⟨hmem, hfit⟩
  · rw [if_pos rfl]
    rw [hu32] at hno
    have hpages := hmem.resolve_left fun ⟨a, ha, hfit⟩ => hno a ha (by rwa [Fits, get_setUp])
    obtain ⟨r, hr⟩ := Option.isSome_iff_exists.mp hpages
    have hnew : s.setUp.allocateNewTag (u32 size) =
        some (r.1, stamp { s.setUp with pmm := r.2 } r.1 size (pagesFor (size + sizeof))) := by
      rw [hu32, Heap.allocateNewTag, hu32', setUp_pmm, hr]
      rfl
    refine Ends.bind
      (ends_ofOption hnew (P := fun r => s.setUp.allocateNewTag (u32 size) = some r) hnew) ?_
    rintro ⟨t, s'⟩ hr
    obtain ⟨R', L', hm, -⟩ := hs.malloc_fresh setUp_initialized hsize hr
    exact ends_pure ⟨t, _, R', L', rfl, hm.of_setUp⟩
  · rw [if_neg (hs.spaced.ne_zero tag ((hs.listed.mem _ _).mp hmem).1)]
    obtain ⟨R', L', hm⟩ := hs.malloc_found setUp_initialized hmem hfit hsize
    exact ends_pure ⟨tag, _, R', L', rfl, hm.of_setUp⟩

end

end Heap

end LimineOS
