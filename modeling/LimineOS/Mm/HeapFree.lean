import LimineOS.Mm.HeapMalloc

/-!
# Giving a block back

`free` merges the block in hand with its free neighbours, one by one, until both are
used. Then the block goes to its list, or to the page allocator.
-/

namespace LimineOS

open ByteMemory Fueled LinkedList Tiling

open BoundaryTag (sizeof noIndex)

namespace Heap

section
variable {own U : Set Nat} {s s' s₀ : Heap} {R R' R₀ R₁ R₂ : List Region} {r : Region}
  {L L' : Nat → List Nat}
  {a b c i t base len size p n : Nat} {A B : List Nat}

theorem Shaped.used_or_listed (h : Shaped own s R L) (ha : a ∈ tags R) :
    s.get .index a = noIndex ∨ a ∈ L (s.get .index a) := by
  rcases eq_or_ne (s.get .index a) noIndex with hno | hno
  · exact .inl hno
  · exact .inr ((h.listed.mem _ a).mpr ⟨ha, rfl, hno⟩)

theorem Shaped.isFree_iff (h : Shaped own s R L) (ha : a ∈ tags R) :
    s.IsFree a ↔ a ∈ L (s.get .index a) := by
  constructor
  · rintro ⟨-, hlt⟩
    refine (h.used_or_listed ha).resolve_left fun hno => ?_
    rw [hno] at hlt
    exact absurd hlt (by decide)
  · intro hmem
    have hlt := h.listed.lt _ a hmem
    exact ⟨h.spaced.ne_zero a ha, hlt.trans (by decide)⟩

/-- While `free` works on the tag `t`, the used blocks are `U` and the one of `t`. -/
structure InHand (own U : Set Nat) (s₀ : Heap) (R₀ : List Region) (s : Heap) (R : List Region)
    (L : Nat → List Nat)
    (t : Nat) : Prop where
  shaped : Shaped own s R L
  balanced : Balanced s R L
  used : Used s R = insert t U
  not_mem : t ∉ U
  spares : Spares own U s₀ R₀ s R
  within : territory R ⊆ territory R₀
  initialized : s.initialized = true

theorem InHand.mem (h : InHand own U s₀ R₀ s R L t) : t ∈ Used s R := h.used ▸ Set.mem_insert t U

theorem InHand.listed_not_mem (h : InHand own U s₀ R₀ s R L t) (ha : a ∈ L i) : a ∉ U ∧ a ≠ t := by
  obtain ⟨-, hi, hne⟩ := (h.shaped.listed.mem i a).mp ha
  have hout : a ∉ insert t U := fun hmem => by
    rw [← h.used] at hmem
    exact hne (hi.symm.trans hmem.2)
  exact ⟨fun hU => hout (Set.mem_insert_of_mem t hU), fun heq => hout (heq ▸ Set.mem_insert t U)⟩

theorem Balanced.counted_erase (hb : Balanced s R L) (hc : c ∈ L i) (hnd : (L i).Nodup)
    (hnot : ¬s.Whole c)
    (hsame : ∀ j, ∀ a ∈ L j, a ≠ c → (s'.Whole a ↔ s.Whole a)) (hout : ∀ j, j ≠ i → c ∉ L j) (j : Nat) :
    s.completePages j = (Function.update L i ((L i).erase c) j).countP fun a => s'.Whole a := by
  rw [hb.counted j]
  rcases eq_or_ne j i with rfl | hj
  · rw [Function.update_self, countP_erase_of_not hc hnd hnot (hsame j)]
  · rw [Function.update_of_ne hj]
    refine congrArg _ (List.countP_congr fun a ha => ?_)
    have hac : a ≠ c := fun heq => hout j hj (heq ▸ ha)
    simpa using (hsame j a ha hac).symm

theorem coalesced_merge {P Q : Nat → Prop}
    (h : ∀ r ∈ R₁ ++ ⟨base, len, A ++ a :: b :: B⟩ :: R₂, Alternate P r.tags)
    (hPQ : ∀ c ∈ tags (R₁ ++ ⟨base, len, A ++ a :: B⟩ :: R₂), P c → Q c) (ha : Q a) :
    ∀ r ∈ R₁ ++ ⟨base, len, A ++ a :: B⟩ :: R₂, Alternate Q r.tags := by
  have hother : ∀ r ∈ R₁ ++ R₂, Alternate Q r.tags := fun r hr => by
    have hin : r ∈ R₁ ++ ⟨base, len, A ++ a :: B⟩ :: R₂ ∧
        r ∈ R₁ ++ ⟨base, len, A ++ a :: b :: B⟩ :: R₂ := by
      rcases List.mem_append.mp hr with hr | hr <;> simp [hr]
    exact (h r hin.2).mono fun c hc => hPQ c ⟨r, hin.1, hc⟩
  have hmid : ∀ c ∈ A ++ a :: B, P c → Q c := fun c hc => hPQ c (mem_tags_middle.mpr (.inr hc))
  intro r hr
  rcases List.mem_append.mp hr with hr | hr
  · exact hother r (List.mem_append_left R₂ hr)
  rcases List.mem_cons.mp hr with rfl | hr
  · obtain ⟨hA, -, -, hB⟩ := alternate_middle.mp (h ⟨base, len, A ++ a :: b :: B⟩ (by simp))
    exact alternate_middle.mpr
      ⟨hA.mono fun c hc => hmid c (by simp [hc]), fun _ _ => .inr ha, fun _ _ => .inl ha,
      Alternate.mono (List.isChain_cons.mp hB).2 fun c hc => hmid c (by simp [hc])⟩
  · exact hother r (List.mem_append_right R₁ hr)

theorem InHand.meltLeft (h : InHand own U s₀ R₀ s (R₁ ++ ⟨base, len, A ++ c :: t :: B⟩ :: R₂) L t)
    (hc : c ∈ L i) :
    InHand own U s₀ R₀ ((s.absorb c t).removeTag c) (R₁ ++ ⟨base, len, A ++ c :: B⟩ :: R₂)
      (Function.update L i ((L i).erase c)) c := by
  obtain ⟨hcU, hct⟩ := h.listed_not_mem hc
  have hok := (tiled_middle.mp h.shaped.tiled).1
  have hcR := ((h.shaped.listed.mem i c).mp hc).1
  have hjoin := h.shaped.absorb h.mem
  have hrem := hjoin.shaped.removeTag hc
  generalize s.absorb c t = u at hjoin hrem ⊢
  generalize u.removeTag c = w at hrem ⊢
  have hUsub : U ⊆ Used s (R₁ ++ ⟨base, len, A ++ c :: t :: B⟩ :: R₂) \ {c, t} := fun a ha => by
    refine ⟨h.used ▸ Set.mem_insert_of_mem t ha, ?_⟩
    rintro (rfl | rfl)
    · exact hcU ha
    · exact h.not_mem ha
  have hused : Used u (R₁ ++ ⟨base, len, A ++ c :: B⟩ :: R₂) = U := by
    rw [hjoin.used, h.used, Set.insert_sdiff_self_of_notMem h.not_mem]
  have hkeep : ∀ a ∈ tags (R₁ ++ ⟨base, len, A ++ c :: B⟩ :: R₂),
      a ∈ tags (R₁ ++ ⟨base, len, A ++ c :: t :: B⟩ :: R₂) :=
    fun a ha => by
      rw [hjoin.tags] at ha
      exact ha.1
  have hindex : ∀ a ∈ tags (R₁ ++ ⟨base, len, A ++ c :: B⟩ :: R₂), s.get .index a = noIndex →
      w.get .index a = noIndex :=
    fun a ha hno => by
      rw [hrem.unlinked.index a ha]
      split
      · rfl
      · exact (hjoin.absorbed.rest .index (by decide) (by decide) (by decide) a (hkeep a ha)).trans hno
  have hlisted : ∀ j, ∀ a ∈ L j, a ∈ tags (R₁ ++ ⟨base, len, A ++ c :: t :: B⟩ :: R₂) ∧
      a ∈ tags (R₁ ++ ⟨base, len, A ++ c :: B⟩ :: R₂) := fun j a ha =>
    ⟨((h.shaped.listed.mem j a).mp ha).1, ((hjoin.shaped.listed.mem j a).mp ha).1⟩
  have hright : s.get .splitRight c = t := by
    have hfirst : link (s.get .splitRight c) = (t :: B).head? := (hok.split A c (t :: B) rfl).1
    rw [List.head?_cons, link_eq_some] at hfirst
    exact hfirst.1
  have ht0 : t ≠ 0 := h.shaped.spaced.ne_zero t h.mem.1
  have hback : ∀ a ∈ tags (R₁ ++ ⟨base, len, A ++ c :: t :: B⟩ :: R₂), a = s.get .splitRight t →
      s.get .splitLeft a = t :=
    fun a ha heq => by
      rw [heq]
      exact hok.left_of_right (by simp) (heq ▸ h.shaped.spaced.ne_zero a ha)
  have hterr : territory (R₁ ++ ⟨base, len, A ++ c :: B⟩ :: R₂) =
      territory (R₁ ++ ⟨base, len, A ++ c :: t :: B⟩ :: R₂) :=
    territory_replace rfl rfl
  refine ⟨hrem.shaped, ⟨fun r hr => ?_, fun j a ha => ?_, fun j => ?_, ?_⟩,
    hrem.used.trans (by rw [hused]), hcU, ?_, hterr.subset.trans h.within,
    (hrem.initialized.trans hjoin.initialized).trans h.initialized⟩
  · refine coalesced_merge h.balanced.coalesced hindex ?_ r hr
    rw [hrem.unlinked.index c (mem_tags_middle.mpr (.inr (by simp))), if_pos rfl]
  · obtain ⟨haL, hac⟩ : a ∈ L j ∧ a ≠ c := by
      rcases eq_or_ne j i with rfl | hj
      · rw [Function.update_self, (h.shaped.listed.nodup j).mem_erase_iff] at ha
        exact ⟨ha.2, ha.1⟩
      · rw [Function.update_of_ne hj] at ha
        exact ⟨ha, fun heq => hj (h.shaped.listed.unique (heq ▸ ha) hc)⟩
    obtain ⟨haR, haR'⟩ := hlisted j a haL
    rw [hrem.unlinked.rest .realSize (by decide) (by decide) (by decide) a haR',
      hjoin.absorbed.realSize a haR, if_neg hac]
    exact h.balanced.classed j a haL
  · rw [hrem.completePages, hjoin.completePages]
    refine h.balanced.counted_erase hc (h.shaped.listed.nodup i)
      (fun hw => ht0 (hright.symm.trans hw.2))
      (fun j a ha hac => ?_) (fun j hj hmem => hj (h.shaped.listed.unique hmem hc)) j
    obtain ⟨haR, haR'⟩ := hlisted j a ha
    rw [hrem.whole haR', Whole, Whole, hjoin.absorbed.splitLeft a haR,
      hjoin.absorbed.splitRight a haR, if_neg hac]
    split
    · rename_i heq
      rw [hback a haR heq]
      exact iff_of_false (fun hw => h.shaped.spaced.ne_zero c hcR hw.1) fun hw => ht0 hw.1
    · rfl
  · rw [hrem.completePages, hjoin.completePages]
    exact h.balanced.few
  · refine h.spares.trans ((hjoin.spares.mono hUsub).trans (hrem.spares.mono ?_))
    rw [hused]

theorem InHand.absorbRight
    (h : InHand own U s₀ R₀ s (R₁ ++ ⟨base, len, A ++ t :: c :: B⟩ :: R₂) L t) (hc : c ∈ L i) :
    InHand own U s₀ R₀ ((s.removeTag c).absorb t c) (R₁ ++ ⟨base, len, A ++ t :: B⟩ :: R₂)
      (Function.update L i ((L i).erase c)) t ∧
    ∀ a ∈ tags (R₁ ++ ⟨base, len, A ++ t :: B⟩ :: R₂), s.get .index a = noIndex →
      ((s.removeTag c).absorb t c).get .index a = noIndex := by
  obtain ⟨hcU, hct⟩ := h.listed_not_mem hc
  have hok := (tiled_middle.mp h.shaped.tiled).1
  have hcR := ((h.shaped.listed.mem i c).mp hc).1
  have hrem := h.shaped.removeTag hc
  have hjoin := hrem.shaped.absorb (hrem.used ▸ Set.mem_insert c _)
  generalize s.removeTag c = u at hjoin hrem ⊢
  generalize u.absorb t c = w at hjoin ⊢
  have hkeep : ∀ a ∈ tags (R₁ ++ ⟨base, len, A ++ t :: B⟩ :: R₂),
      a ∈ tags (R₁ ++ ⟨base, len, A ++ t :: c :: B⟩ :: R₂) ∧ a ≠ c := fun a ha => by
    rw [hjoin.tags] at ha
    exact ha
  have hindex : ∀ a ∈ tags (R₁ ++ ⟨base, len, A ++ t :: B⟩ :: R₂), s.get .index a = noIndex →
      w.get .index a = noIndex :=
    fun a ha hno => by
      obtain ⟨haR, hac⟩ := hkeep a ha
      rw [hjoin.absorbed.rest .index (by decide) (by decide) (by decide) a haR,
        hrem.unlinked.index a haR, if_neg hac]
      exact hno
  have hleft : s.get .splitLeft c = t := by
    have hlast : link (s.get .splitLeft c) = (A ++ [t]).getLast? :=
      (hok.split (A ++ [t]) c B (by simp)).2
    rw [List.getLast?_concat, link_eq_some] at hlast
    exact hlast.1
  have ht0 : t ≠ 0 := h.shaped.spaced.ne_zero t h.mem.1
  have hsplit : ∀ f, f ≠ .next → f ≠ .prev → f ≠ .index →
      ∀ a ∈ tags (R₁ ++ ⟨base, len, A ++ t :: c :: B⟩ :: R₂),
      u.get f a = s.get f a := hrem.unlinked.rest
  have hback : ∀ a ∈ tags (R₁ ++ ⟨base, len, A ++ t :: c :: B⟩ :: R₂), a = u.get .splitRight c →
      s.get .splitLeft a = c :=
    fun a ha heq => by
      rw [hsplit .splitRight (by decide) (by decide) (by decide) c hcR] at heq
      rw [heq]
      exact hok.left_of_right (by simp) (heq ▸ h.shaped.spaced.ne_zero a ha)
  have hused : Used w (R₁ ++ ⟨base, len, A ++ t :: B⟩ :: R₂) = insert t U := by
    have hcout : c ∉ insert t U := by
      rintro (heq | hU)
      · exact hct heq
      · exact hcU hU
    rw [hjoin.used, hrem.used, h.used, Set.insert_sdiff_self_of_notMem hcout]
  have hterr : territory (R₁ ++ ⟨base, len, A ++ t :: B⟩ :: R₂) =
      territory (R₁ ++ ⟨base, len, A ++ t :: c :: B⟩ :: R₂) :=
    territory_replace rfl rfl
  refine ⟨⟨hjoin.shaped, ⟨fun r hr => ?_, fun j a ha => ?_, fun j => ?_, ?_⟩, hused, h.not_mem, ?_,
    hterr.subset.trans h.within, (hjoin.initialized.trans hrem.initialized).trans h.initialized⟩,
    hindex⟩
  · exact coalesced_merge h.balanced.coalesced hindex
      (hindex t (mem_tags_middle.mpr (.inr (by simp))) h.mem.2) r hr
  · have haL : a ∈ L j := by
      rcases eq_or_ne j i with rfl | hj
      · rw [Function.update_self] at ha
        exact List.mem_of_mem_erase ha
      · rwa [Function.update_of_ne hj] at ha
    have haR := ((h.shaped.listed.mem j a).mp haL).1
    rw [hjoin.absorbed.realSize a haR, if_neg (h.listed_not_mem haL).2,
      hsplit .realSize (by decide) (by decide) (by decide) a haR]
    exact h.balanced.classed j a haL
  · rw [hjoin.completePages, hrem.completePages]
    refine h.balanced.counted_erase hc (h.shaped.listed.nodup i) (fun hw => ht0 (hleft.symm.trans hw.1))
      (fun j a ha hac => ?_) (fun j hj hmem => hj (h.shaped.listed.unique hmem hc)) j
    have haR := ((h.shaped.listed.mem j a).mp ha).1
    rw [Whole, Whole, hjoin.absorbed.splitLeft a haR, hjoin.absorbed.splitRight a haR,
      if_neg (h.listed_not_mem ha).2, hsplit .splitLeft (by decide) (by decide) (by decide) a haR,
      hsplit .splitRight (by decide) (by decide) (by decide) a haR]
    split
    · rename_i heq
      rw [hback a haR heq]
      exact iff_of_false (fun hw => ht0 hw.1) fun hw => h.shaped.spaced.ne_zero c hcR hw.1
    · rfl
  · rw [hjoin.completePages, hrem.completePages]
    exact h.balanced.few
  · have hUsub : U ⊆ Used u (R₁ ++ ⟨base, len, A ++ t :: c :: B⟩ :: R₂) \ {t, c} := fun a ha => by
      refine ⟨hrem.used ▸ Set.mem_insert_of_mem c (h.used ▸ Set.mem_insert_of_mem t ha), ?_⟩
      rintro (rfl | rfl)
      · exact h.not_mem ha
      · exact hcU ha
    refine h.spares.trans ((hrem.spares.mono fun a ha => ?_).trans (hjoin.spares.mono hUsub))
    rw [h.used]
    exact Set.mem_insert_of_mem t ha

-- ---------------------------------------------------------------------------
-- The two loops
-- ---------------------------------------------------------------------------

theorem Shaped.index_of_not_free (h : Shaped own s R L) (ha : a ∈ tags R) (hnot : ¬s.IsFree a) :
    s.get .index a = noIndex :=
  (h.used_or_listed ha).resolve_right fun hmem => hnot ((h.isFree_iff ha).mpr hmem)

def Melting (own U : Set Nat) (s₀ : Heap) (R₀ : List Region) (A B : List Nat) (t : Nat) (s : Heap) :
    Prop :=
  ∃ R₁ R₂ base len L, InHand own U s₀ R₀ s (R₁ ++ ⟨base, len, A ++ t :: B⟩ :: R₂) L t

def LeftUsed (s : Heap) (A : List Nat) : Prop := ∀ a ∈ A.getLast?, s.get .index a = noIndex

def RightUsed (s : Heap) (B : List Nat) : Prop := ∀ b ∈ B.head?, s.get .index b = noIndex

theorem InHand.melting (h : InHand own U s₀ R₀ s (R₁ ++ ⟨base, len, A ++ t :: B⟩ :: R₂) L t) :
    Melting own U s₀ R₀ A B t s :=
  ⟨R₁, R₂, base, len, L, h⟩

theorem melt_ends (h : Melting own U s₀ R₀ A B t s) :
    Ends (iterate meltStep (t, s)) fun r => ∃ t s A B,
      r = (t, s) ∧ Melting own U s₀ R₀ A B t s ∧ LeftUsed s A := by
  refine ends_iterate (I :=
    fun n r => ∃ t s A B, r = (t, s) ∧ Melting own U s₀ R₀ A B t s ∧ A.length = n) ?_ ?_
    ⟨t, s, A, B, rfl, h, rfl⟩
  · rintro n _ r ⟨t, s, A, B, rfl, ⟨R₁, R₂, base, len, L, h⟩, rfl⟩ hstep
    rw [meltStep] at hstep
    split at hstep
    · rename_i hfree
      obtain rfl := Sum.inl.inj hstep
      have hlast : link (s.get .splitLeft t) = A.getLast? :=
        ((tiled_middle.mp h.shaped.tiled).1.split A t B rfl).2
      rw [link_of_ne hfree.1] at hlast
      obtain ⟨A', rfl⟩ := List.getLast?_eq_some_iff.mp hlast.symm
      have hmem : s.get .splitLeft t ∈
          tags (R₁ ++ ⟨base, len, (A' ++ [s.get .splitLeft t]) ++ t :: B⟩ :: R₂) :=
        mem_tags_middle.mpr (.inr (by simp))
      have hc := (h.shaped.isFree_iff hmem).mp hfree
      simp only [List.append_assoc, List.singleton_append] at h
      exact ⟨A'.length, by simp, _, _, A', B, rfl, (h.meltLeft hc).melting, rfl⟩
    · exact absurd hstep (by simp)
  · rintro n _ r ⟨t, s, A, B, rfl, ⟨R₁, R₂, base, len, L, h⟩, rfl⟩ hstep
    rw [meltStep] at hstep
    split at hstep
    · exact absurd hstep (by simp)
    · rename_i hfree
      obtain rfl := Sum.inr.inj hstep
      refine ⟨t, s, A, B, rfl, h.melting, fun a ha => ?_⟩
      have hlast : link (s.get .splitLeft t) = A.getLast? :=
        ((tiled_middle.mp h.shaped.tiled).1.split A t B rfl).2
      have hmem : a ∈ tags (R₁ ++ ⟨base, len, A ++ t :: B⟩ :: R₂) :=
        mem_tags_middle.mpr (.inr (List.mem_append_left _ (List.mem_of_getLast? ha)))
      obtain ⟨rfl, -⟩ := link_eq_some.mp (hlast.trans ha)
      exact h.shaped.index_of_not_free hmem hfree

theorem absorb_ends (h : Melting own U s₀ R₀ A B t s) (hA : LeftUsed s A) :
    Ends (iterate absorbStep (t, s)) fun r =>
      ∃ t s A B, r = (t, s) ∧ Melting own U s₀ R₀ A B t s ∧ LeftUsed s A ∧ RightUsed s B := by
  refine ends_iterate
    (I := fun n r => ∃ t s A B, r = (t, s) ∧ Melting own U s₀ R₀ A B t s ∧ LeftUsed s A ∧
      B.length = n) ?_ ?_
    ⟨t, s, A, B, rfl, h, hA, rfl⟩
  · rintro n _ r ⟨t, s, A, B, rfl, ⟨R₁, R₂, base, len, L, h⟩, hA, rfl⟩ hstep
    rw [absorbStep, Heap.absorbRight] at hstep
    split at hstep
    · rename_i hfree
      obtain rfl := Sum.inl.inj hstep
      have hfirst : link (s.get .splitRight t) = B.head? :=
        ((tiled_middle.mp h.shaped.tiled).1.split A t B rfl).1
      rw [link_of_ne hfree.1] at hfirst
      obtain ⟨B', rfl⟩ := List.head?_eq_some_iff.mp hfirst.symm
      have hmem : s.get .splitRight t ∈
          tags (R₁ ++ ⟨base, len, A ++ t :: s.get .splitRight t :: B'⟩ :: R₂) :=
        mem_tags_middle.mpr (.inr (by simp))
      obtain ⟨h', hindex⟩ := h.absorbRight ((h.shaped.isFree_iff hmem).mp hfree)
      have hA' : LeftUsed ((s.removeTag (s.get .splitRight t)).absorb t (s.get .splitRight t)) A :=
        fun a ha =>
        hindex a (mem_tags_middle.mpr (.inr (List.mem_append_left _ (List.mem_of_getLast? ha))))
          (hA a ha)
      exact ⟨B'.length, by simp, _, _, A, B', rfl, h'.melting, hA', rfl⟩
    · exact absurd hstep (by simp)
  · rintro n _ r ⟨t, s, A, B, rfl, ⟨R₁, R₂, base, len, L, h⟩, hA, rfl⟩ hstep
    rw [absorbStep] at hstep
    split at hstep
    · exact absurd hstep (by simp)
    · rename_i hfree
      obtain rfl := Sum.inr.inj hstep
      refine ⟨t, s, A, B, rfl, h.melting, hA, fun b hb => ?_⟩
      have hfirst : link (s.get .splitRight t) = B.head? :=
        ((tiled_middle.mp h.shaped.tiled).1.split A t B rfl).1
      have hmem : b ∈ tags (R₁ ++ ⟨base, len, A ++ t :: B⟩ :: R₂) :=
        mem_tags_middle.mpr
          (.inr (List.mem_append_right A (List.mem_cons_of_mem t (List.mem_of_head? hb))))
      obtain ⟨rfl, -⟩ := link_eq_some.mp (hfirst.trans hb)
      exact h.shaped.index_of_not_free hmem hfree

-- ---------------------------------------------------------------------------
-- Where the block goes
-- ---------------------------------------------------------------------------

theorem Shaped.exponentAt_eq (h : Shaped own s R L) (ht : t ∈ tags R) :
    s.exponentAt t = exponent (s.get .realSize t - sizeof) := by
  obtain ⟨r, hr, htr⟩ := ht
  have hleast := (h.tiled.ok r hr).tiles.least_le htr
  have hreal : s.get .realSize t < 2 ^ 32 := get_lt s .realSize t
  rw [exponentAt, subU64_of_le (by omega) hleast, u32, Nat.mod_eq_of_lt (by omega)]

theorem Inserted.whole (h : Inserted own s R L c i s') (ha : a ∈ tags R) : s'.Whole a ↔ s.Whole a := by
  rw [Whole, Whole, h.pushed.rest _ (by decide) (by decide) (by decide) a ha,
    h.pushed.rest _ (by decide) (by decide) (by decide) a ha]

theorem Inserted.coalesced (h : Inserted own s (R₁ ++ ⟨base, len, A ++ t :: B⟩ :: R₂) L t i s')
    (hs : Tiled s.get (R₁ ++ ⟨base, len, A ++ t :: B⟩ :: R₂))
    (hco : ∀ r ∈ R₁ ++ ⟨base, len, A ++ t :: B⟩ :: R₂,
      Alternate (fun a => s.get .index a = noIndex) r.tags)
    (hA : LeftUsed s A) (hB : RightUsed s B) :
    ∀ r ∈ R₁ ++ ⟨base, len, A ++ t :: B⟩ :: R₂,
      Alternate (fun a => s'.get .index a = noIndex) r.tags := by
  have hindex : ∀ a ∈ tags (R₁ ++ ⟨base, len, A ++ t :: B⟩ :: R₂), a ≠ t →
      s'.get .index a = s.get .index a :=
    fun a ha hat => by rw [h.pushed.index a ha, if_neg hat]
  have hother : ∀ r ∈ R₁ ++ R₂, Alternate (fun a => s'.get .index a = noIndex) r.tags := fun r hr => by
    have hr' : r ∈ R₁ ++ ⟨base, len, A ++ t :: B⟩ :: R₂ := by
      rcases List.mem_append.mp hr with hr | hr <;> simp [hr]
    refine (hco r hr').mono fun a ha hno => (hindex a ⟨r, hr', ha⟩ ?_).trans hno
    rintro rfl
    exact hs.not_mem_tags ⟨r, hr, ha⟩ (by simp)
  have hnd : (A ++ t :: B).Nodup := (tiled_middle.mp hs).1.nodup
  rw [List.nodup_append, List.nodup_cons] at hnd
  obtain ⟨-, ⟨htB, -⟩, hdisj⟩ := hnd
  have hmid : ∀ a ∈ A ++ B, s'.get .index a = s.get .index a := fun a ha => by
    rcases List.mem_append.mp ha with ha | ha
    · exact hindex a (mem_tags_middle.mpr (.inr (by simp [ha]))) (hdisj a ha t (by simp))
    · exact hindex a (mem_tags_middle.mpr (.inr (by simp [ha]))) fun heq => htB (heq ▸ ha)
  intro r hr
  rcases List.mem_append.mp hr with hr | hr
  · exact hother r (List.mem_append_left R₂ hr)
  rcases List.mem_cons.mp hr with rfl | hr
  · obtain ⟨haltA, -, -, haltB⟩ := alternate_middle.mp (hco ⟨base, len, A ++ t :: B⟩ (by simp))
    refine alternate_middle.mpr
      ⟨haltA.mono fun a ha hno => (hmid a (by simp [ha])).trans hno, fun a ha => .inl ?_,
      fun b hb => .inr ?_, haltB.mono fun a ha hno => (hmid a (by simp [ha])).trans hno⟩
    · exact (hmid a (List.mem_append_left B (List.mem_of_getLast? ha))).trans (hA a ha)
    · exact (hmid b (List.mem_append_right A (List.mem_of_head? hb))).trans (hB b hb)
  · exact hother r (List.mem_append_right R₁ hr)

theorem Inserted.classed (h : Inserted own s R L c i s') (hs : Shaped own s R L) (hc : c ∈ Used s R)
    (hi : i = exponent (s.get .realSize c - sizeof))
    (hcl : ∀ j, ∀ a ∈ L j, j = exponent (s.get .realSize a - sizeof)) :
    ∀ j, ∀ a ∈ Function.update L i (c :: L i) j, j = exponent (s'.get .realSize a - sizeof) := by
  intro j a ha
  have hreal : ∀ a ∈ tags R, s'.get .realSize a = s.get .realSize a :=
    h.pushed.rest .realSize (by decide) (by decide) (by decide)
  have hold : a ∈ L j → j = exponent (s'.get .realSize a - sizeof) := fun ha => by
    rw [hreal a (hs.ne_used hc ha).1]
    exact hcl j a ha
  rcases eq_or_ne j i with rfl | hj
  · rw [Function.update_self] at ha
    rcases List.mem_cons.mp ha with rfl | ha
    · rwa [hreal a hc.1]
    · exact hold ha
  · rw [Function.update_of_ne hj] at ha
    exact hold ha

theorem Inserted.countP (h : Inserted own s R L c i s') (hs : Shaped own s R L) (hc : c ∈ tags R)
    (j : Nat) :
    (Function.update L i (c :: L i) j).countP (fun a => s'.Whole a) =
      (L j).countP (fun a => s.Whole a) + if j = i ∧ s.Whole c then 1 else 0 := by
  have hcount : (L j).countP (fun a => s'.Whole a) = (L j).countP fun a => s.Whole a :=
    List.countP_congr fun a ha => by
    simpa using h.whole ((hs.listed.mem j a).mp ha).1
  rcases eq_or_ne j i with rfl | hj
  · rw [Function.update_self, List.countP_cons, hcount]
    simp [h.whole hc]
  · rw [Function.update_of_ne hj, hcount, if_neg fun hh => hj hh.1, Nat.add_zero]

structure Freed (own U : Set Nat) (s : Heap) (R : List Region) (s' : Heap) (R' : List Region)
    (L' : Nat → List Nat) : Prop where
  wf : Wf own s' R' L'
  used : Used s' R' = U
  spares : Spares own U s R s' R'
  within : territory R' ⊆ territory R
  initialized : s'.initialized = true

theorem get_of_pmm (h : s'.pmm = s.pmm) : s'.get = s.get := by
  funext f a
  rw [Heap.get, h]
  rfl

theorem spares_of_pmm (h : s'.pmm = s.pmm) : Spares own U s R s' R := by
  have hget := get_of_pmm h
  refine ⟨fun _ _ =>
    by rw [hget], fun _ _ => by rw [hget], fun _ _ _ _ => by rw [h], fun x hx _ hR => ?_,
    fun x hx hR => ⟨h ▸ hx, hR⟩, by rw [h]⟩
  rw [h]
  exact ⟨hx, hR, rfl⟩

/-- The block goes to its list. `u` is the heap with its count already up to date. -/
theorem InHand.putBack {u : Heap} (h : InHand own U s₀ R₀ s (R₁ ++ ⟨base, len, A ++ t :: B⟩ :: R₂) L t)
    (hu : Shaped own u (R₁ ++ ⟨base, len, A ++ t :: B⟩ :: R₂) L) (hpmm : u.pmm = s.pmm)
    (hinit : u.initialized = s.initialized) (hA : LeftUsed s A) (hB : RightUsed s B)
    (hi : i = exponent (s.get .realSize t - sizeof))
    (hcount : ∀ j, u.completePages j = s.completePages j + if j = i ∧ s.Whole t then 1 else 0)
    (hfew : ∀ j, u.completePages j ≤ maxComplete) :
    ∃ R' L', Freed own U s₀ R₀ (u.insertTag t i) R' L' := by
  have hget := get_of_pmm hpmm
  have hused : Used u (R₁ ++ ⟨base, len, A ++ t :: B⟩ :: R₂) = Insert.insert t U := by
    rw [← h.used, Used, Used, hget]
  have ht : t ∈ Used u (R₁ ++ ⟨base, len, A ++ t :: B⟩ :: R₂) := hused ▸ Set.mem_insert t U
  have hneg : ¬((i : Int) < 0) := by omega
  have hins := (hu.pending ht).insertTag (hi ▸ exponent_lt _)
    ((if_neg hneg).trans (Int.toNat_natCast i))
  have hwhole : ∀ a, u.Whole a ↔ s.Whole a := fun a => by rw [Whole, Whole, hget]
  refine ⟨_, _, ⟨hins.shaped, ⟨?_, ?_, fun j => ?_, ?_⟩, ?_⟩, ?_, ?_, h.within, ?_⟩
  · refine hins.coalesced hu.tiled ?_ ?_ ?_
    · rw [hget]
      exact h.balanced.coalesced
    · rw [LeftUsed, hget]
      exact hA
    · rw [RightUsed, hget]
      exact hB
  · refine hins.classed hu ht ?_ ?_
    · rw [hget]
      exact hi
    · rw [hget]
      exact h.balanced.classed
  · have hsame : (L j).countP (fun a => u.Whole a) = (L j).countP fun a => s.Whole a :=
      List.countP_congr fun a _ => by simpa using hwhole a
    rw [hins.countP hu ht.1, hins.completePages, hcount j, h.balanced.counted j, hsame]
    simp only [hwhole]
    split <;> rfl
  · rw [hins.completePages]
    exact hfew
  · intro hno
    rw [hins.initialized, hinit, h.initialized] at hno
    exact absurd hno (by decide)
  · rw [hins.used, hused, Set.insert_sdiff_self_of_notMem h.not_mem]
  · refine h.spares.trans ((spares_of_pmm hpmm).trans (hins.spares.mono fun a ha => ?_))
    exact hused ▸ Set.mem_insert_of_mem t ha
  · rw [hins.initialized, hinit, h.initialized]

theorem Released.freed (hrel : Released own s R R' L t s') (h : InHand own U s₀ R₀ s R L t)
    (hU : Used s R \ {t} = U)
    (hcount : s'.completePages = s.completePages) (hinit : s'.initialized = s.initialized)
    (hsub : ∀ r ∈ R', r ∈ R) : Freed own U s₀ R₀ s' R' L := by
  have hkeep : ∀ a ∈ Heap.tags R', a ∈ Heap.tags R := fun a ha => (hrel.tags ▸ ha).1
  have hlisted : ∀ j, ∀ a ∈ L j, a ∈ Heap.tags R' :=
    fun j a ha => ((hrel.shaped.listed.mem j a).mp ha).1
  refine ⟨⟨hrel.shaped, ⟨fun r hr => ?_, fun j a ha => ?_, fun j => ?_, hcount ▸ h.balanced.few⟩,
    fun hno => ?_⟩, ?_, h.spares.trans (hU ▸ hrel.spares), ?_, hinit.trans h.initialized⟩
  · exact (h.balanced.coalesced r (hsub r hr)).mono fun a ha hno =>
      (hrel.get .index a ⟨r, hr, ha⟩).trans hno
  · rw [hrel.get .realSize a (hlisted j a ha)]
    exact h.balanced.classed j a ha
  · rw [hcount, h.balanced.counted j]
    refine congrArg _ (List.countP_congr fun a ha => ?_)
    have hwhole : s.Whole a ↔ s'.Whole a := by
      rw [Whole, Whole, hrel.get _ a (hlisted j a ha), hrel.get _ a (hlisted j a ha)]
    simpa using hwhole
  · rw [hinit, h.initialized] at hno
    exact absurd hno (by decide)
  · rw [← hU]
    ext a
    rw [Used, hrel.tags]
    constructor
    · rintro ⟨ha, hno⟩
      exact ⟨⟨ha.1, (hrel.get .index a (hrel.tags ▸ ha)).symm.trans hno⟩, ha.2⟩
    · rintro ⟨⟨ha, hno⟩, hat⟩
      have ha' : a ∈ Heap.tags R' := hrel.tags ▸ ⟨ha, hat⟩
      exact ⟨⟨ha, hat⟩, (hrel.get .index a ha').trans hno⟩
  · rintro x ⟨r, hr, hx⟩
    exact h.within ⟨r, hsub r hr, hx⟩

theorem InHand.giveBack (h : InHand own U s₀ R₀ s (R₁ ++ ⟨base, len, A ++ t :: B⟩ :: R₂) L t)
    (hA : LeftUsed s A)
    (hB : RightUsed s B) : ∃ R' L', Freed own U s₀ R₀ (s.giveBack t) R' L' := by
  have hok := (tiled_middle.mp h.shaped.tiled).1
  have hi := h.shaped.exponentAt_eq h.mem.1
  rw [Heap.giveBack]
  split
  · rename_i hwhole
    split
    · -- the region is this one block
      have hfirst : link (s.get .splitRight t) = B.head? := (hok.split A t B rfl).1
      have hlast : link (s.get .splitLeft t) = A.getLast? := (hok.split A t B rfl).2
      have hA0 : A = [] := by
        rw [hwhole.1, link_zero] at hlast
        exact List.getLast?_eq_none_iff.mp hlast.symm
      have hB0 : B = [] := by
        rw [hwhole.2, link_zero] at hfirst
        exact List.head?_eq_none_iff.mp hfirst.symm
      subst hA0 hB0
      have hU : Used s (R₁ ++ ⟨base, len, [t]⟩ :: R₂) \ {t} = U := by
        rw [← Set.insert_sdiff_self_of_notMem h.not_mem, ← h.used]
        rfl
      refine ⟨_, _, (h.shaped.release h.mem).freed h hU rfl rfl fun r hr => ?_⟩
      rcases List.mem_append.mp hr with hr | hr <;> simp [hr]
    · rename_i hmax
      generalize s.exponentAt t = i at hi hmax ⊢
      refine h.putBack h.shaped.countComplete rfl rfl hA hB hi (fun j => ?_) fun j => ?_
      · rcases eq_or_ne j i with rfl | hj
        · rw [countComplete_self, if_pos ⟨rfl, hwhole⟩]
        · rw [countComplete_of_ne hj, if_neg fun hh => hj hh.1, Int.add_zero]
      · have hfew := h.balanced.few j
        rcases eq_or_ne j i with rfl | hj
        · rw [countComplete_self]
          omega
        · rwa [countComplete_of_ne hj]
  · rename_i hwhole
    refine h.putBack h.shaped rfl rfl hA hB hi (fun j => ?_) h.balanced.few
    rw [if_neg fun hh => hwhole hh.2, Int.add_zero]

-- ---------------------------------------------------------------------------
-- free
-- ---------------------------------------------------------------------------

theorem Wf.inHand (h : Wf own s R L) (ht : t ∈ Used s R) : InHand own (Used s R \ {t}) s R s R L t where
  shaped := h.toShaped
  balanced := h.balanced
  used := (Set.insert_sdiff_self_of_mem ht).symm
  not_mem hmem := hmem.2 rfl
  spares := Spares.refl
  within := subset_rfl
  initialized := by
    by_contra hno
    obtain ⟨r, hr, -⟩ := ht.1
    rw [h.unused (by simpa using hno)] at hr
    exact absurd hr List.not_mem_nil

theorem Shaped.subU64_sizeof (h : Shaped own s R L) (ht : t ∈ tags R) :
    subU64 (t + sizeof) sizeof = t := by
  obtain ⟨r, hr, htr⟩ := ht
  have hleast := (h.tiled.ok r hr).tiles.least_le htr
  have hend := ((h.tiled.ok r hr).tiles.inside htr).2
  have hspace := (h.tiled.ok r hr).inSpace
  rw [subU64_of_le (by omega) (by omega), Nat.add_sub_cancel]

theorem Shaped.magic (h : Shaped own s R L) (ht : t ∈ tags R) : s.get .magic t = liballocMagic := by
  obtain ⟨r, hr, htr⟩ := ht
  exact (h.tiled.ok r hr).magic t htr

theorem Wf.free_spec (h : Wf own s R L) (ht : t ∈ Used s R) :
    Ends (s.free (t + sizeof)) (fun s' => ∃ R' L', Freed own (Used s R \ {t}) s R s' R' L') ∧
      Safe (s.free (t + sizeof)) fun s' => ∃ R' L', Freed own (Used s R \ {t}) s R s' R' L' := by
  have hhand := h.inHand ht
  have hne : t + sizeof ≠ 0 := Nat.ne_of_gt (Nat.add_pos_right t (by decide))
  rw [Heap.free, h.subU64_sizeof ht.1, if_neg hne, if_neg (not_not_intro (h.magic ht.1))]
  obtain ⟨r, hr, htr⟩ := ht.1
  obtain ⟨R₁, R₂, rfl⟩ := List.append_of_mem hr
  obtain ⟨A, B, hAB⟩ := List.append_of_mem htr
  obtain ⟨base, len, tags⟩ := r
  obtain rfl : tags = A ++ t :: B := hAB
  refine (melt_ends hhand.melting).bind_iterate ?_
  rintro _ ⟨t', s', A', B', rfl, hmelt, hA⟩
  refine (absorb_ends hmelt hA).bind_iterate ?_
  rintro _ ⟨u, s'', A'', B'', rfl, ⟨R₁', R₂', base', len', L', hin⟩, hA', hB'⟩
  exact ⟨ends_pure (hin.giveBack hA' hB'), safe_pure (hin.giveBack hA' hB')⟩

end

end Heap

end LimineOS
