import LimineOS.Lib.LinkedList
import LimineOS.Lib.Tiling
import LimineOS.Mm.Frames
import LimineOS.Mm.Heap

/-!
# Boundary tags

What each helper of the heap does to the tags, as long as no two tags overlap.
-/

namespace LimineOS

open ByteMemory LinkedList Tiling

open BoundaryTag (sizeof noIndex)

abbrev Headers : Type := BoundaryTag → Nat → Nat

theorem BoundaryTag.fits (f : BoundaryTag) : f.offset + f.width ≤ sizeof := by cases f <;> decide

theorem BoundaryTag.disjoint {f g : BoundaryTag} (h : f ≠ g) :
    f.offset + f.width ≤ g.offset ∨ g.offset + g.width ≤ f.offset := by
  revert h
  cases f <;> cases g <;> decide

namespace Heap

structure Spaced (H : Set Nat) : Prop where
  apart : ∀ a ∈ H, ∀ b ∈ H, a ≠ b → a + sizeof ≤ b ∨ b + sizeof ≤ a
  ne_zero : ∀ a ∈ H, a ≠ 0
  inSpace : ∀ a ∈ H, a < 2 ^ 64

structure Edits (H : Set Nat) (s s' : Heap) : Prop where
  pmm : s'.pmm = { s.pmm with ram := s'.pmm.ram }
  ram : ∀ x, (∀ a ∈ H, x ∉ span a sizeof) → s'.pmm.ram x = s.pmm.ram x

section
variable {s s' s'' : Heap} {H : Set Nat} {f g : BoundaryTag} {a b c t v : Nat}

@[simp] theorem set_freePages : (s.set f t v).freePages = s.freePages := rfl

@[simp] theorem set_completePages : (s.set f t v).completePages = s.completePages := rfl

@[simp] theorem set_initialized : (s.set f t v).initialized = s.initialized := rfl

@[simp] theorem setLink_freePages : (s.setLink f t v).freePages = s.freePages := by
  unfold setLink
  split <;> rfl

@[simp] theorem setLink_completePages : (s.setLink f t v).completePages = s.completePages := by
  unfold setLink
  split <;> rfl

@[simp] theorem setLink_initialized : (s.setLink f t v).initialized = s.initialized := by
  unfold setLink
  split <;> rfl

theorem insert_spaced (hH : Spaced H) (h0 : t ≠ 0) (hlt : t < 2 ^ 64)
    (hapart : ∀ a ∈ H, a + sizeof ≤ t ∨ t + sizeof ≤ a) :
    Spaced (insert t H) := by
  refine ⟨?_, ?_, ?_⟩
  · rintro a (rfl | ha) b (rfl | hb) hne
    · exact absurd rfl hne
    · exact (hapart b hb).symm
    · exact hapart a ha
    · exact hH.apart a ha b hb hne
  · rintro a (rfl | ha)
    · exact h0
    · exact hH.ne_zero a ha
  · rintro a (rfl | ha)
    · exact hlt
    · exact hH.inSpace a ha

theorem Edits.refl : Edits H s s := ⟨rfl, fun _ _ => rfl⟩

theorem Edits.trans (h : Edits H s s') (h' : Edits H s' s'') : Edits H s s'' :=
  ⟨by rw [h'.pmm, h.pmm], fun x hx => (h'.ram x hx).trans (h.ram x hx)⟩

theorem Edits.set (h : Edits H s s') (ht : t ∈ H) : Edits H s (s'.set f t v) := by
  refine h.trans ⟨rfl, fun x hx => writeLE_of_not_mem fun hmem => hx t ht ?_⟩
  exact span_subset (Nat.le_add_right t f.offset) (by have := BoundaryTag.fits f; omega) hmem

theorem Edits.setLink (h : Edits H s s') (ht : t ≠ 0 → t ∈ H) : Edits H s (s'.setLink f t v) := by
  unfold Heap.setLink
  split
  · exact h.set (ht ‹_›)
  · exact h

theorem get_set (hH : Spaced H) (ha : a ∈ H) (ht : t ∈ H) (hv : v < 256 ^ f.width) :
    (s.set f t v).get g a = if g = f ∧ a = t then v else s.get g a := by
  have hf := BoundaryTag.fits f
  have hg := BoundaryTag.fits g
  have hread : (∀ x ∈ span (a + g.offset) g.width, x ∉ span (t + f.offset) f.width) →
      (s.set f t v).get g a = s.get g a :=
        fun hdisj => readLE_writeLE_disjoint (Set.disjoint_left.mpr hdisj)
  by_cases hat : a = t
  · subst hat
    by_cases hgf : g = f
    · subst hgf
      rw [if_pos ⟨rfl, rfl⟩]
      exact (readLE_writeLE_self ..).trans (Nat.mod_eq_of_lt hv)
    · rw [if_neg fun h => hgf h.1]
      refine hread fun x hx hx' => ?_
      have := BoundaryTag.disjoint hgf
      rw [mem_span] at hx hx'
      omega
  · rw [if_neg fun h => hat h.2]
    refine hread fun x hx hx' => ?_
    have := hH.apart a ha t ht hat
    rw [mem_span] at hx hx'
    omega

theorem get_setLink (hH : Spaced H) (ha : a ∈ H) (ht : t ≠ 0 → t ∈ H) (hv : v < 256 ^ f.width) :
    (s.setLink f t v).get g a = if g = f ∧ a = t then v else s.get g a := by
  unfold setLink
  split
  · exact get_set hH ha (ht ‹_›) hv
  · rename_i h0
    have hne : a ≠ t := fun h => hH.ne_zero a ha (h.trans (not_not.mp h0))
    rw [if_neg fun h => hne h.2]

theorem get_lt (s : Heap) (f : BoundaryTag) (a : Nat) : s.get f a < 256 ^ f.width := readLE_lt ..

-- ---------------------------------------------------------------------------
-- The lists
-- ---------------------------------------------------------------------------

theorem get_unhead : (s.unhead c).get f a = s.get f a := by
  unfold unhead
  split <;> rfl

theorem edits_unhead : Edits H s (s.unhead c) := by
  unfold unhead
  split <;> exact ⟨rfl, fun _ _ => rfl⟩

theorem unhead_freePages : (s.unhead c).freePages = if s.freePages (s.get .index c) = c then
    Function.update s.freePages (s.get .index c) (s.get .next c) else s.freePages := by
  unfold unhead
  split <;> rfl

@[simp] theorem unhead_completePages : (s.unhead c).completePages = s.completePages := by
  unfold unhead
  split <;> rfl

@[simp] theorem unhead_initialized : (s.unhead c).initialized = s.initialized := by
  unfold unhead
  split <;> rfl

structure Unlinked (F F' : Headers) (H : Set Nat) (c : Nat) : Prop where
  next : ∀ a ∈ H, F' .next a = if a = c then 0 else if a = F .prev c then F .next c else F .next a
  prev : ∀ a ∈ H, F' .prev a = if a = c then 0 else if a = F .next c then F .prev c else F .prev a
  index : ∀ a ∈ H, F' .index a = if a = c then noIndex else F .index a
  rest : ∀ f, f ≠ .next → f ≠ .prev → f ≠ .index → ∀ a ∈ H, F' f a = F f a

theorem removeTag_unlinked (hH : Spaced H) (hc : c ∈ H)
    (hprev : s.get .prev c ≠ 0 → s.get .prev c ∈ H ∧ s.get .prev c ≠ c)
    (hnext : s.get .next c ≠ 0 → s.get .next c ∈ H ∧ s.get .next c ≠ c) :
    Unlinked s.get (s.removeTag c).get H c ∧ Edits H s (s.removeTag c) ∧
      (s.removeTag c).freePages = (if s.freePages (s.get .index c) = c then
        Function.update s.freePages (s.get .index c) (s.get .next c) else s.freePages) ∧
      (s.removeTag c).completePages = s.completePages ∧
      (s.removeTag c).initialized = s.initialized := by
  have hp : s.get .prev c < 256 ^ 8 := get_lt ..
  have hn : s.get .next c < 256 ^ 8 := get_lt ..
  have hpc : s.get .prev c ≠ c := by
    by_cases h0 : s.get .prev c = 0
    · exact fun h => hH.ne_zero c hc (h.symm.trans h0)
    · exact (hprev h0).2
  have hnc : s.get .next c ≠ c := by
    by_cases h0 : s.get .next c = 0
    · exact fun h => hH.ne_zero c hc (h.symm.trans h0)
    · exact (hnext h0).2
  -- the two neighbours first
  obtain ⟨t, ht⟩ : ∃ t, t = (s.unhead c).setLink .next (s.get .prev c) (s.get .next c) := ⟨_, rfl⟩
  have hget : ∀ f, ∀ a ∈ H, t.get f a =
      if f = .next ∧ a = s.get .prev c then s.get .next c else s.get f a := by
    intro f a ha
    rw [ht, get_setLink hH ha (fun h => (hprev h).1) hn, get_unhead]
  have htn : t.get .next c = s.get .next c := by rw [hget _ c hc, if_neg fun h => hpc h.2.symm]
  have htp : t.get .prev c = s.get .prev c := by rw [hget _ c hc, if_neg fun h => nomatch h.1]
  obtain ⟨u, hu⟩ : ∃ u, u = t.setLink .prev (s.get .next c) (s.get .prev c) := ⟨_, rfl⟩
  have hget' : ∀ f, ∀ a ∈ H, u.get f a =
      if f = .prev ∧ a = s.get .next c then s.get .prev c else
        if f = .next ∧ a = s.get .prev c then s.get .next c else s.get f a := by
    intro f a ha
    rw [hu, get_setLink hH ha (fun h => (hnext h).1) hp, hget f a ha]
  have heq : s.removeTag c = ((u.set .next c 0).set .prev c 0).set .index c noIndex := by
    rw [hu, removeTag, get_unhead, get_unhead, ← ht, htn, htp]
  -- then the tag itself
  have hget'' : ∀ f, ∀ a ∈ H, (s.removeTag c).get f a =
      if f = .index ∧ a = c then noIndex else if f = .prev ∧ a = c then 0
      else if f = .next ∧ a = c then 0 else u.get f a := by
    intro f a ha
    rw [heq, get_set hH ha hc (by decide), get_set hH ha hc (by decide), get_set hH ha hc (by decide)]
  refine ⟨⟨fun a ha => ?_, fun a ha => ?_, fun a ha => ?_, fun f h₁ h₂ h₃ a ha => ?_⟩, ?_, ?_, ?_, ?_⟩
  · simp [hget'' _ a ha, hget' _ a ha]
  · simp [hget'' _ a ha, hget' _ a ha]
  · simp [hget'' _ a ha, hget' _ a ha]
  · simp [hget'' _ a ha, hget' _ a ha, h₁, h₂, h₃]
  · rw [heq, hu, ht]
    refine Edits.set (Edits.set (Edits.set ?_ hc) hc) hc
    exact (edits_unhead.setLink fun h => (hprev h).1).setLink fun h => (hnext h).1
  · simp [heq, hu, ht, unhead_freePages]
  · simp [heq, hu, ht]
  · simp [heq, hu, ht]

structure Pushed (F F' : Headers) (H : Set Nat) (c i h : Nat) : Prop where
  next : ∀ a ∈ H, F' .next a = if a = c ∧ h ≠ 0 then h else F .next a
  prev : ∀ a ∈ H, F' .prev a = if a = h then c else F .prev a
  index : ∀ a ∈ H, F' .index a = if a = c then i else F .index a
  rest : ∀ f, f ≠ .next → f ≠ .prev → f ≠ .index → ∀ a ∈ H, F' f a = F f a

theorem insertTag_pushed {index : Int} {i : Nat} (hH : Spaced H) (hc : c ∈ H)
    (hi : (if index < 0 then s.exponentAt c else index.toNat) = i) (hlt : i < 2 ^ 32)
    (hhead : s.freePages i ≠ 0 → s.freePages i ∈ H) :
    Pushed s.get (s.insertTag c index).get H c i (s.freePages i) ∧ Edits H s (s.insertTag c index) ∧
      (s.insertTag c index).freePages = Function.update s.freePages i c ∧
      (s.insertTag c index).completePages = s.completePages ∧
      (s.insertTag c index).initialized = s.initialized := by
  have hh : s.freePages i ≠ 0 → s.freePages i < 256 ^ 8 := fun h => hH.inSpace _ (hhead h)
  have hcs : c < 256 ^ 8 := hH.inSpace c hc
  have hget : ∀ f, ∀ a ∈ H, (s.set .index c i).get f a = if f = .index ∧ a = c then i else s.get f a :=
    fun f a ha => get_set hH ha hc hlt
  obtain ⟨t, ht⟩ : ∃ t, t = if s.freePages i ≠ 0 then
    ((s.set .index c i).set .prev (s.freePages i) c).set .next c (s.freePages i)
      else s.set .index c i := ⟨_, rfl⟩
  have heq : s.insertTag c index = { t with freePages := Function.update s.freePages i c } := by
    rw [ht, insertTag, hi, set_freePages]
    split <;> rfl
  have hget' : ∀ f, ∀ a ∈ H, t.get f a =
      if f = .next ∧ a = c ∧ s.freePages i ≠ 0 then s.freePages i
      else if f = .prev ∧ a = s.freePages i then c
      else if f = .index ∧ a = c then i else s.get f a := by
    intro f a ha
    by_cases h0 : s.freePages i = 0
    · have hne : a ≠ s.freePages i := fun h => hH.ne_zero a ha (h.trans h0)
      simp [ht, h0, hget f a ha, hH.ne_zero a ha]
    · rw [ht, if_pos h0, get_set hH ha hc (hh h0), get_set hH ha (hhead h0) hcs, hget f a ha]
      simp [h0]
  have hedits : Edits H s t := by
    rw [ht]
    split
    · exact ((Edits.refl.set hc).set (hhead ‹_›)).set hc
    · exact Edits.refl.set hc
  rw [heq]
  refine ⟨⟨fun a ha => ?_, fun a ha => ?_, fun a ha => ?_, fun f h₁ h₂ h₃ a ha => ?_⟩,
    ⟨hedits.pmm, hedits.ram⟩, rfl, ?_, ?_⟩
  · exact (hget' _ a ha).trans (by simp)
  · exact (hget' _ a ha).trans (by simp)
  · exact (hget' _ a ha).trans (by simp)
  · exact (hget' _ a ha).trans (by simp [h₁, h₂, h₃])
  · rw [ht]
    split <;> rfl
  · rw [ht]
    split <;> rfl

-- ---------------------------------------------------------------------------
-- The blocks
-- ---------------------------------------------------------------------------

structure Absorbed (F F' : Headers) (H : Set Nat) (t c : Nat) : Prop where
  realSize : ∀ a ∈ H, F' .realSize a = if a = t then F .realSize t + F .realSize c else F .realSize a
  splitLeft : ∀ a ∈ H, F' .splitLeft a = if a = F .splitRight c then t else F .splitLeft a
  splitRight : ∀ a ∈ H, F' .splitRight a = if a = t then F .splitRight c else F .splitRight a
  rest : ∀ f, f ≠ .realSize → f ≠ .splitLeft → f ≠ .splitRight → ∀ a ∈ H, F' f a = F f a

theorem absorb_absorbed (hH : Spaced H) (ht : t ∈ H) (hc : c ∈ H) (hne : c ≠ t)
    (hright : s.get .splitRight c ≠ 0 → s.get .splitRight c ∈ H)
    (hsum : s.get .realSize t + s.get .realSize c < 2 ^ 32) :
    Absorbed s.get (s.absorb t c).get H t c ∧ Edits H s (s.absorb t c) ∧
      (s.absorb t c).freePages = s.freePages ∧
      (s.absorb t c).completePages = s.completePages ∧ (s.absorb t c).initialized = s.initialized := by
  have hr : s.get .splitRight c < 256 ^ 8 := get_lt ..
  have hts : t < 256 ^ 8 := hH.inSpace t ht
  obtain ⟨u, hu⟩ : ∃ u,
    u = (s.set .realSize t (s.get .realSize t + s.get .realSize c)).set .splitRight t
    (s.get .splitRight c) := ⟨_, rfl⟩
  have hget : ∀ f, ∀ a ∈ H, u.get f a = if f = .splitRight ∧ a = t then s.get .splitRight c else
      if f = .realSize ∧ a = t then s.get .realSize t + s.get .realSize c else s.get f a := by
    intro f a ha
    rw [hu, get_set hH ha ht hr, get_set hH ha ht hsum]
  have hkeep : (s.set .realSize t (s.get .realSize t + s.get .realSize c)).get .splitRight c =
      s.get .splitRight c := by
    rw [get_set hH hc ht hsum, if_neg fun h => hne h.2]
  have heq : s.absorb t c = u.setLink .splitLeft (s.get .splitRight c) t := by
    have hc' : u.get .splitRight c = s.get .splitRight c := by simp [hget _ c hc, hne]
    rw [absorb, hkeep, ← hu, hc']
  have hget' : ∀ f, ∀ a ∈ H, (s.absorb t c).get f a =
      if f = .splitLeft ∧ a = s.get .splitRight c then t else u.get f a := by
    intro f a ha
    rw [heq, get_setLink hH ha hright hts]
  refine ⟨⟨fun a ha => ?_, fun a ha => ?_, fun a ha => ?_, fun f h₁ h₂ h₃ a ha => ?_⟩, ?_, ?_, ?_, ?_⟩
  · simp [hget' _ a ha, hget _ a ha]
  · simp [hget' _ a ha, hget _ a ha]
  · simp [hget' _ a ha, hget _ a ha]
  · simp [hget' _ a ha, hget _ a ha, h₁, h₂, h₃]
  · rw [heq, hu]
    exact ((Edits.refl.set ht).set ht).setLink hright
  · simp [heq, hu]
  · simp [heq, hu]
  · simp [heq, hu]

structure Divided (F F' : Headers) (H : Set Nat) (t c len : Nat) : Prop where
  realSize : ∀ a ∈ H, F' .realSize a = if a = t then F .realSize t - len else if a = c then len
    else F .realSize a
  splitLeft : ∀ a ∈ H, F' .splitLeft a = if a = F .splitRight t then c else if a = c then t
    else F .splitLeft a
  splitRight : ∀ a ∈ H, F' .splitRight a = if a = t then c else if a = c then F .splitRight t
    else F .splitRight a
  magic : ∀ a ∈ H, F' .magic a = if a = c then liballocMagic else F .magic a
  next : ∀ a ∈ H, F' .next a = if a = c then 0 else F .next a
  prev : ∀ a ∈ H, F' .prev a = if a = c then 0 else F .prev a
  size : ∀ a ∈ H, F' .size a = F .size a
  index : ∀ a ∈ H, F' .index a = F .index a

theorem divide_divided {len : Nat} (hH : Spaced H) (ht : t ∈ H) (hc : c ∈ H) (hne : t ≠ c)
    (hright : s.get .splitRight t ≠ 0 → s.get .splitRight t ∈ H) (hlen : len ≤ s.get .realSize t) :
    Divided s.get (s.divide t c len).get H t c len ∧ Edits H s (s.divide t c len) ∧
      (s.divide t c len).freePages = s.freePages ∧ (s.divide t c len).completePages = s.completePages ∧
      (s.divide t c len).initialized = s.initialized := by
  have hr : s.get .splitRight t < 256 ^ 8 := get_lt ..
  have hreal : s.get .realSize t < 2 ^ 32 := get_lt s .realSize t
  have hts : t < 256 ^ 8 := hH.inSpace t ht
  have hcs : c < 256 ^ 8 := hH.inSpace c hc
  have hls : len < 256 ^ 4 := hlen.trans_lt hreal
  have hls' : s.get .realSize t - len < 256 ^ 4 := (Nat.sub_le ..).trans_lt hreal
  -- the new tag
  obtain ⟨u, hu⟩ : ∃ u,
    u = ((((s.set .magic c liballocMagic).set .realSize c len).set .next c 0).set .prev c 0).set
    .splitLeft c t := ⟨_, rfl⟩
  have hget : ∀ f, ∀ a ∈ H, u.get f a =
      if f = .splitLeft ∧ a = c then t else if f = .prev ∧ a = c then 0
      else if f = .next ∧ a = c then 0 else if f = .realSize ∧ a = c then len
      else if f = .magic ∧ a = c then liballocMagic else s.get f a := by
    intro f a ha
    rw [hu, get_set hH ha hc hts, get_set hH ha hc (by decide), get_set hH ha hc (by decide),
      get_set hH ha hc hls, get_set hH ha hc (by decide)]
  -- and its neighbours
  obtain ⟨w, hw⟩ : ∃ w,
    w = ((u.set .splitRight c (s.get .splitRight t)).setLink .splitLeft (s.get .splitRight t) c).set
    .splitRight t c := ⟨_, rfl⟩
  have hget' : ∀ f, ∀ a ∈ H, w.get f a = if f = .splitRight ∧ a = t then c else
      if f = .splitLeft ∧ a = s.get .splitRight t then c else
        if f = .splitRight ∧ a = c then s.get .splitRight t else u.get f a := by
    intro f a ha
    rw [hw, get_set hH ha ht hcs, get_setLink hH ha hright hcs, get_set hH ha hc hr]
  have hut : u.get .splitRight t = s.get .splitRight t := by simp [hget _ t ht]
  have huc : (u.set .splitRight c (s.get .splitRight t)).get .splitRight c = s.get .splitRight t := by
    rw [get_set hH hc hc hr, if_pos ⟨rfl, rfl⟩]
  have hwt : w.get .realSize t = s.get .realSize t := by simp [hget' _ t ht, hget _ t ht, hne]
  have hwc : w.get .realSize c = len := by simp [hget' _ c hc, hget _ c hc]
  have hsub : u32 (subU64 (s.get .realSize t) len) = s.get .realSize t - len := by
    rw [subU64_of_le (by omega) hlen, u32, Nat.mod_eq_of_lt (by omega)]
  have heq : s.divide t c len = w.set .realSize t (s.get .realSize t - len) := by
    rw [divide, ← hu, hut, huc, ← hw, hwt, hwc, hsub]
  have hget'' : ∀ f, ∀ a ∈ H, (s.divide t c len).get f a =
      if f = .realSize ∧ a = t then s.get .realSize t - len else w.get f a := by
    intro f a ha
    rw [heq, get_set hH ha ht hls']
  refine ⟨⟨fun a ha => ?_,
    fun a ha => ?_, fun a ha => ?_, fun a ha => ?_,
    fun a ha => ?_, fun a ha => ?_, fun a ha => ?_, fun a ha => ?_⟩, ?_, ?_, ?_, ?_⟩
  · simp [hget'' _ a ha, hget' _ a ha, hget _ a ha]
  · simp [hget'' _ a ha, hget' _ a ha, hget _ a ha]
  · simp [hget'' _ a ha, hget' _ a ha, hget _ a ha]
  · simp [hget'' _ a ha, hget' _ a ha, hget _ a ha]
  · simp [hget'' _ a ha, hget' _ a ha, hget _ a ha]
  · simp [hget'' _ a ha, hget' _ a ha, hget _ a ha]
  · simp [hget'' _ a ha, hget' _ a ha, hget _ a ha]
  · simp [hget'' _ a ha, hget' _ a ha, hget _ a ha]
  · rw [heq, hw, hu]
    refine Edits.set (Edits.set (Edits.setLink (Edits.set ?_ hc) hright) ht) ht
    exact ((((Edits.refl.set hc).set hc).set hc).set hc).set hc
  · simp [heq, hw, hu]
  · simp [heq, hw, hu]
  · simp [heq, hw, hu]

def stampedField (size len : Nat) : BoundaryTag → Nat
  | .magic => liballocMagic
  | .size => size
  | .realSize => len
  | .index => noIndex
  | .splitLeft | .splitRight | .next | .prev => 0

structure Stamped (F F' : Headers) (H : Set Nat) (t size len : Nat) : Prop where
  other : ∀ f, ∀ a ∈ H, a ≠ t → F' f a = F f a
  magic : F' .magic t = liballocMagic
  size : F' .size t = size
  realSize : F' .realSize t = len
  index : F' .index t = noIndex
  splitLeft : F' .splitLeft t = 0
  splitRight : F' .splitRight t = 0
  next : F' .next t = 0
  prev : F' .prev t = 0

theorem stamp_stamped {size pages : Nat} (hH : Spaced H) (ht : t ∈ H) (hsize : size < 2 ^ 32)
    (hpages : pages * pageSize < 2 ^ 32) :
    Stamped s.get (s.stamp t size pages).get H t size (pages * pageSize) ∧
      Edits {t} s (s.stamp t size pages) ∧ (s.stamp t size pages).freePages = s.freePages ∧
      (s.stamp t size pages).completePages = s.completePages ∧
      (s.stamp t size pages).initialized = s.initialized := by
  have hget : ∀ f, ∀ a ∈ H, (s.stamp t size pages).get f a =
      if a = t then stampedField size (pages * pageSize) f else s.get f a := by
    intro f a ha
    have hno : noIndex < 256 ^ 4 := by decide
    have hmagic : liballocMagic < 256 ^ 4 := by decide
    rw [stamp, get_set hH ha ht (by decide), get_set hH ha ht (by decide), get_set hH ha ht (by decide),
      get_set hH ha ht (by decide), get_set hH ha ht hno, get_set hH ha ht hpages,
      get_set hH ha ht hsize, get_set hH ha ht hmagic]
    by_cases hat : a = t
    · cases f <;> simp [hat, stampedField]
    · simp [hat]
  refine ⟨⟨fun f a ha hat => ?_, ?_, ?_, ?_, ?_, ?_, ?_, ?_, ?_⟩, ?_, rfl, rfl, rfl⟩
  · rw [hget f a ha, if_neg hat]
  iterate 8 rw [hget _ t ht, if_pos rfl, stampedField]
  · have hmem : t ∈ ({t} : Set Nat) := rfl
    exact (((((((Edits.refl.set hmem).set hmem).set hmem).set hmem).set hmem).set hmem).set
      hmem).set hmem

end

end Heap

end LimineOS
