import LimineOS.Mm.HeapShape

/-!
# The helpers of the heap

Each helper takes a well-shaped heap to a well-shaped one. A tag in no list is used:
its block is a client's, or in the hands of the function at work. What a helper does
not touch of these, and all memory that is not the heap's, it leaves as it is
(`Spares`).
-/

namespace LimineOS

open ByteMemory LinkedList Tiling

open BoundaryTag (sizeof noIndex)

namespace Heap

structure Grounded (own : Set Nat) (s : Heap) (R : List Region) : Prop where
  sane : PhysicalMemory.Sane own s.pmm
  held : ∀ x ∈ territory R, s.pmm.Held x ∧ x ∉ own
  tiled : Tiled s.get R

structure Shaped (own : Set Nat) (s : Heap) (R : List Region) (L : Nat → List Nat) :
    Prop extends Grounded own s R where
  listed : Listed s.get s.freePages (tags R) L

structure Pending (own : Set Nat) (s : Heap) (R : List Region) (L : Nat → List Nat) (c : Nat) : Prop
    extends Grounded own s R where
  mem : c ∈ tags R
  listed : Listed s.get s.freePages (tags R \ {c}) L
  next : s.get .next c = 0
  prev : s.get .prev c = 0

def Used (s : Heap) (R : List Region) : Set Nat := {a | a ∈ tags R ∧ s.get .index a = noIndex}

def content (s : Heap) (a : Nat) : Set Nat := span (a + sizeof) (s.get .realSize a - sizeof)

structure Spares (own U : Set Nat) (s : Heap) (R : List Region) (s' : Heap)
    (R' : List Region) : Prop where
  size : ∀ a ∈ U, s'.get .size a = s.get .size a
  realSize : ∀ a ∈ U, s'.get .realSize a = s.get .realSize a
  content : ∀ a ∈ U, ∀ x ∈ content s a, s'.pmm.ram x = s.pmm.ram x
  outside : ∀ x, s.pmm.Held x → x ∉ own → x ∉ territory R →
    s'.pmm.Held x ∧ x ∉ territory R' ∧ s'.pmm.ram x = s.pmm.ram x
  others : ∀ x, s'.pmm.Held x → x ∉ territory R' → s.pmm.Held x ∧ x ∉ territory R
  limit : s'.pmm.limit = s.pmm.limit

section
variable {own U U' : Set Nat} {s s' s'' : Heap} {R R' R'' R₁ R₂ : List Region} {r : Region}
  {L : Nat → List Nat}
  {H : Set Nat} {a b c i t x base len v : Nat} {A B : List Nat}

theorem Spares.refl : Spares own U s R s R :=
  ⟨fun _ _ => rfl, fun _ _ => rfl, fun _ _ _ _ => rfl,
    fun _ h _ h' => ⟨h, h', rfl⟩, fun _ h h' => ⟨h, h'⟩, rfl⟩

theorem Spares.trans (h : Spares own U s R s' R') (h' : Spares own U s' R' s'' R'') :
    Spares own U s R s'' R'' where
  size a ha := (h'.size a ha).trans (h.size a ha)
  realSize a ha := (h'.realSize a ha).trans (h.realSize a ha)
  content a ha x hx := by
    have hx' : x ∈ Heap.content s' a := by rwa [Heap.content, h.realSize a ha]
    rw [h'.content a ha x hx', h.content a ha x hx]
  outside x hx hown hout := by
    obtain ⟨hx', hout', hram⟩ := h.outside x hx hown hout
    obtain ⟨hx'', hout'', hram'⟩ := h'.outside x hx' hown hout'
    exact ⟨hx'', hout'', hram'.trans hram⟩
  others x hx hout := by
    obtain ⟨hx', hout'⟩ := h'.others x hx hout
    exact h.others x hx' hout'
  limit := h'.limit.trans h.limit

theorem Spares.mono (h : Spares own U s R s' R') (hU : U' ⊆ U) : Spares own U' s R s' R' where
  size a ha := h.size a (hU ha)
  realSize a ha := h.realSize a (hU ha)
  content a ha := h.content a (hU ha)
  outside := h.outside
  others := h.others
  limit := h.limit

theorem Grounded.spaced (h : Grounded own s R) : Spaced (tags R) := h.tiled.spaced

theorem Tiled.header_subset {F : Headers} (h : Tiled F R) (ha : a ∈ tags R) :
    span a sizeof ⊆ territory R := by
  obtain ⟨r, hr, ha⟩ := ha
  have hleast := (h.ok r hr).tiles.least_le ha
  intro x hx
  exact ⟨r, hr, (h.ok r hr).tag_bytes ha (span_subset (le_refl a) (by omega) hx)⟩

theorem Tiled.header_apart {F : Headers} (h : Tiled F R)
    (hdisj : Disjoint (span c sizeof) (territory R)) :
    ∀ a ∈ tags R, a + sizeof ≤ c ∨ c + sizeof ≤ a := by
  intro a ha
  have hsub := h.header_subset ha
  have hout : ∀ x, c ≤ x ∧ x < c + sizeof → ¬(a ≤ x ∧ x < a + sizeof) := fun x hx hxa =>
    Set.disjoint_left.mp hdisj hx (hsub hxa)
  have hsize : 0 < sizeof := by decide
  have h₁ := hout a
  have h₂ := hout c
  omega

theorem Tiled.content_apart (h : Tiled s.get R) (ha : a ∈ tags R) (hb : b ∈ tags R)
    (hx : x ∈ content s a) :
    x ∉ span b sizeof := by
  intro hxb
  have hspaced := h.spaced
  rw [content, mem_span] at hx
  rw [mem_span] at hxb
  rcases eq_or_ne a b with rfl | hne
  · omega
  · obtain ⟨r, hr, hb'⟩ := hb
    have hleast := (h.ok r hr).tiles.least_le hb'
    have := h.blocks_apart ha ⟨r, hr, hb'⟩ hne
    omega

theorem Edits.sane {T : Set Nat} (he : Edits H s s') (hsane : PhysicalMemory.Sane own s.pmm)
    (hT : ∀ x ∈ T, s.pmm.Held x ∧ x ∉ own) (hH : ∀ a ∈ H, span a sizeof ⊆ T) :
    PhysicalMemory.Sane own s'.pmm ∧ PhysicalMemory.Grow own T s.pmm s'.pmm ∧
      ∀ x ∉ T, s'.pmm.ram x = s.pmm.ram x := by
  have hout : ∀ x, x ∉ {x | ∃ a ∈ H, x ∈ span a sizeof} → s'.pmm.ram x = s.pmm.ram x := fun x hx =>
    he.ram x fun a ha hmem => hx ⟨a, ha, hmem⟩
  obtain ⟨hsane, hgrow⟩ := hsane.write hout
    (fun x ⟨a, ha, hx⟩ => (hT x (hH a ha hx)).1) fun x ⟨a, ha, hx⟩ => (hT x (hH a ha hx)).2
  rw [← he.pmm] at hsane hgrow
  exact ⟨hsane, hgrow.mono fun x ⟨a, ha, hx⟩ _ => hH a ha hx,
    fun x hx => hout x fun ⟨a, ha, hmem⟩ => hx (hH a ha hmem)⟩

theorem Grounded.edit (h : Grounded own s R) (he : Edits H s s')
    (hH : ∀ a ∈ H, span a sizeof ⊆ territory R) :
    PhysicalMemory.Sane own s'.pmm ∧ PhysicalMemory.Grow own (territory R) s.pmm s'.pmm ∧
      ∀ x ∉ territory R, s'.pmm.ram x = s.pmm.ram x :=
  he.sane h.sane h.held hH

theorem Grounded.spares (h : Grounded own s R) (he : Edits H s s')
    (hH : ∀ a ∈ H, span a sizeof ⊆ territory R)
    (hterr : territory R' = territory R) (hU : ∀ a ∈ U, ∀ x ∈ content s a, ∀ b ∈ H, x ∉ span b sizeof)
    (hsize : ∀ a ∈ U, s'.get .size a = s.get .size a)
    (hreal : ∀ a ∈ U, s'.get .realSize a = s.get .realSize a) :
    Spares own U s R s' R' := by
  obtain ⟨-, hgrow, hram⟩ := h.edit he hH
  refine ⟨hsize, hreal, fun a ha x hx => he.ram x (hU a ha x hx),
    fun x hx _ hout => ?_, fun x hx hout => ?_, ?_⟩
  · exact ⟨hgrow.held x hx, hterr ▸ hout, hram x hout⟩
  · have hown : ∀ x ∈ own, s'.pmm.ram x = s.pmm.ram x :=
      fun x hx => hram x fun hxR => (h.held x hxR).2 hx
    rw [he.pmm, h.sane.held_write hown] at hx
    exact ⟨hx, hterr ▸ hout⟩
  · rw [he.pmm]
    rfl

theorem Shaped.links (h : Shaped own s R L) (hc : c ∈ L i) :
    (s.get .prev c ≠ 0 → s.get .prev c ∈ tags R ∧ s.get .prev c ≠ c) ∧
      (s.get .next c ≠ 0 → s.get .next c ∈ tags R ∧ s.get .next c ≠ c) := by
  constructor
  · intro h0
    obtain ⟨hmem, hne⟩ := h.listed.prev_mem hc h0
    exact ⟨((h.listed.mem i _).mp hmem).1, hne⟩
  · intro h0
    obtain ⟨hmem, hne⟩ := h.listed.next_mem hc h0
    exact ⟨((h.listed.mem i _).mp hmem).1, hne⟩

structure Removed (own : Set Nat) (s : Heap) (R : List Region) (L : Nat → List Nat) (c i : Nat)
    (s' : Heap) : Prop where
  shaped : Shaped own s' R (Function.update L i ((L i).erase c))
  unlinked : Unlinked s.get s'.get (tags R) c
  used : Used s' R = insert c (Used s R)
  spares : Spares own (Used s R) s R s' R
  grow : PhysicalMemory.Grow own (territory R) s.pmm s'.pmm
  completePages : s'.completePages = s.completePages
  initialized : s'.initialized = s.initialized

theorem Shaped.removeTag (h : Shaped own s R L) (hc : c ∈ L i) :
    Removed own s R L c i (s.removeTag c) := by
  obtain ⟨hcR, hci, hi⟩ := (h.listed.mem i c).mp hc
  have hH := h.spaced
  obtain ⟨hprev, hnext⟩ := h.links hc
  obtain ⟨hun, hedits, hheads, hcount, hinit⟩ := removeTag_unlinked hH hcR hprev hnext
  have hterr := fun a ha => h.tiled.header_subset (a := a) ha
  obtain ⟨hsane, hgrow, -⟩ := h.edit hedits hterr
  have hsame : ∀ f, f ≠ .next → f ≠ .prev → f ≠ .index →
      ∀ a ∈ tags R, (s.removeTag c).get f a = s.get f a := hun.rest
  refine ⟨⟨⟨hsane, fun x hx => ⟨hgrow.held x (h.held x hx).1, (h.held x hx).2⟩, ?_⟩, ?_⟩, hun, ?_,
    ?_, hgrow, hcount, hinit⟩
  · refine h.tiled.congr (hsame _ ?_ ?_ ?_) (hsame _ ?_ ?_ ?_) (hsame _ ?_ ?_ ?_) (hsame _ ?_ ?_ ?_)
    all_goals decide
  · rw [hheads, hci]
    exact h.listed.unlinked hH.ne_zero hun hc
  · ext a
    constructor
    · rintro ⟨ha, hidx⟩
      rw [hun.index a ha] at hidx
      split at hidx
      · rename_i hac
        exact .inl hac
      · exact .inr ⟨ha, hidx⟩
    · rintro (rfl | ⟨ha, hidx⟩)
      · exact ⟨hcR, by rw [hun.index a hcR, if_pos rfl]⟩
      · refine ⟨ha, ?_⟩
        rw [hun.index a ha]
        split
        · rfl
        · exact hidx
  · refine h.spares hedits hterr rfl (fun a ha x hx b hb => h.tiled.content_apart ha.1 hb hx)
      (fun a ha => hsame _ ?_ ?_ ?_ a ha.1) fun a ha => hsame _ ?_ ?_ ?_ a ha.1
    all_goals decide

theorem Shaped.pending (h : Shaped own s R L) (hc : c ∈ Used s R) : Pending own s R L c := by
  obtain ⟨hcR, hidx⟩ := hc
  obtain ⟨hnext, hprev⟩ := h.listed.idle c hcR hidx
  refine ⟨h.toGrounded, hcR, ?_, hnext, hprev⟩
  refine h.listed.transfer (fun i a ha => ⟨((h.listed.mem i a).mp ha).1, ?_⟩)
    (fun a ha => .inl ha.1) (fun _ _ _ => rfl)
    (fun _ _ _ => rfl) fun _ _ _ => rfl
  rintro rfl
  obtain ⟨-, hi, hne⟩ := (h.listed.mem i a).mp ha
  exact hne (hi.symm.trans hidx)

structure Inserted (own : Set Nat) (s : Heap) (R : List Region) (L : Nat → List Nat) (c i : Nat)
    (s' : Heap) : Prop where
  shaped : Shaped own s' R (Function.update L i (c :: L i))
  pushed : Pushed s.get s'.get (tags R) c i (s.freePages i)
  used : Used s' R = Used s R \ {c}
  spares : Spares own (Used s R) s R s' R
  grow : PhysicalMemory.Grow own (territory R) s.pmm s'.pmm
  completePages : s'.completePages = s.completePages
  initialized : s'.initialized = s.initialized

theorem Pending.insertTag {index : Int} (h : Pending own s R L c) (hlt : i < maxExp)
    (hi : (if index < 0 then s.exponentAt c else index.toNat) = i) :
    Inserted own s R L c i (s.insertTag c index) := by
  have hH := h.spaced
  have hi0 : i ≠ noIndex := fun heq => absurd hlt (heq ▸ by decide)
  have hnew : ∀ j, c ∉ L j := fun j hmem => ((h.listed.mem j c).mp hmem).1.2 rfl
  have hhead : s.freePages i ≠ 0 → s.freePages i ∈ tags R := fun h0 => by
    have hfirst := h.listed.head i
    rw [link_of_ne h0] at hfirst
    exact ((h.listed.mem i _).mp (List.mem_of_head? hfirst.symm)).1.1
  have hlt' : i < 2 ^ 32 := hlt.trans (by decide)
  obtain ⟨hpushed, hedits, hheads, hcount, hinit⟩ := insertTag_pushed hH h.mem hi hlt' hhead
  have hterr := fun a ha => h.tiled.header_subset (a := a) ha
  obtain ⟨hsane, hgrow, -⟩ := h.edit hedits hterr
  have hsame : ∀ f, f ≠ .next → f ≠ .prev → f ≠ .index →
      ∀ a ∈ tags R, (s.insertTag c index).get f a = s.get f a :=
    hpushed.rest
  refine ⟨⟨⟨hsane, fun x hx => ⟨hgrow.held x (h.held x hx).1, (h.held x hx).2⟩, ?_⟩, ?_⟩, hpushed,
    ?_, ?_, hgrow, hcount, hinit⟩
  · refine h.tiled.congr (hsame _ ?_ ?_ ?_) (hsame _ ?_ ?_ ?_) (hsame _ ?_ ?_ ?_) (hsame _ ?_ ?_ ?_)
    all_goals decide
  · rw [hheads]
    exact h.listed.pushed hH.ne_zero hpushed Set.sdiff_subset (fun a ha hac => ⟨ha, hac⟩) h.mem hnew
      h.next h.prev hlt
  · ext a
    constructor
    · rintro ⟨ha, hidx⟩
      rw [hpushed.index a ha] at hidx
      split at hidx
      · exact absurd hidx hi0
      · exact ⟨⟨ha, hidx⟩, ‹_›⟩
    · rintro ⟨⟨ha, hidx⟩, hac⟩
      refine ⟨ha, ?_⟩
      rw [hpushed.index a ha, if_neg fun heq : a = c => hac heq]
      exact hidx
  · refine h.spares hedits hterr rfl (fun a ha x hx b hb => h.tiled.content_apart ha.1 hb hx)
      (fun a ha => hsame _ ?_ ?_ ?_ a ha.1) fun a ha => hsame _ ?_ ?_ ?_ a ha.1
    all_goals decide

theorem territory_replace {r' : Region} (hbase : r'.base = r.base) (hlen : r'.len = r.len) :
    territory (R₁ ++ r' :: R₂) = territory (R₁ ++ r :: R₂) := by
  have hbytes : r'.bytes = r.bytes := by rw [Region.bytes, Region.bytes, hbase, hlen]
  ext x
  constructor
  · rintro ⟨q, hq, hx⟩
    rcases List.mem_append.mp hq with hq | hq
    · exact ⟨q, List.mem_append_left _ hq, hx⟩
    · rcases List.mem_cons.mp hq with rfl | hq
      · exact ⟨r, by simp, hbytes ▸ hx⟩
      · exact ⟨q, by simp [hq], hx⟩
  · rintro ⟨q, hq, hx⟩
    rcases List.mem_append.mp hq with hq | hq
    · exact ⟨q, List.mem_append_left _ hq, hx⟩
    · rcases List.mem_cons.mp hq with rfl | hq
      · exact ⟨r', by simp, hbytes ▸ hx⟩
      · exact ⟨q, by simp [hq], hx⟩

theorem perm_behind : (A ++ t :: c :: B).Perm (c :: (A ++ t :: B)) := by
  have hmid : (A ++ [t] ++ c :: B).Perm (c :: (A ++ [t] ++ B)) := List.perm_middle
  simpa using hmid

theorem mem_without (h : (A ++ t :: c :: B).Nodup) :
    a ∈ A ++ t :: B ↔ a ∈ A ++ t :: c :: B ∧ a ≠ c := by
  have hout : c ∉ A ++ t :: B := (List.nodup_cons.mp (perm_behind.nodup_iff.mp h)).1
  rw [perm_behind.mem_iff, List.mem_cons]
  constructor
  · intro ha
    exact ⟨.inr ha, fun heq => hout (heq ▸ ha)⟩
  · rintro ⟨ha, hac⟩
    exact ha.resolve_left hac

structure Joined (own : Set Nat) (s : Heap) (R R' : List Region) (L : Nat → List Nat) (t c : Nat)
    (s' : Heap) : Prop where
  shaped : Shaped own s' R' L
  absorbed : Absorbed s.get s'.get (tags R) t c
  tags : tags R' = tags R \ {c}
  used : Used s' R' = Used s R \ {c}
  spares : Spares own (Used s R \ {t, c}) s R s' R'
  completePages : s'.completePages = s.completePages
  initialized : s'.initialized = s.initialized

theorem Shaped.absorb (h : Shaped own s (R₁ ++ ⟨base, len, A ++ t :: c :: B⟩ :: R₂) L)
    (hc : c ∈ Used s (R₁ ++ ⟨base, len, A ++ t :: c :: B⟩ :: R₂)) :
    Joined own s (R₁ ++ ⟨base, len, A ++ t :: c :: B⟩ :: R₂) (R₁ ++ ⟨base, len, A ++ t :: B⟩ :: R₂)
      L t c
      (s.absorb t c) := by
  have hH := h.spaced
  have hok := (tiled_middle.mp h.tiled).1
  have hnd := hok.nodup
  have ht : t ∈ tags (R₁ ++ ⟨base, len, A ++ t :: c :: B⟩ :: R₂) := mem_tags_middle.mpr (.inr (by simp))
  have hct : c ≠ t := by
    rintro rfl
    simp [List.nodup_append] at hnd
  have hright : s.get .splitRight c ≠ 0 →
      s.get .splitRight c ∈ tags (R₁ ++ ⟨base, len, A ++ t :: c :: B⟩ :: R₂) :=
    fun h0 => mem_tags_middle.mpr (.inr (hok.right_mem (by simp) h0))
  have hsum : s.get .realSize t + s.get .realSize c < 2 ^ 32 := by
    have hle := (hok.tiles.inside (b := t) (by simp)).1
    have hend := (hok.tiles.inside (b := c) (by simp)).2
    have hnext := hok.tiles.next
    have hlen := hok.len_lt
    simp only at hle hend hlen
    omega
  obtain ⟨hab, hedits, hheads, hcount, hinit⟩ := absorb_absorbed hH ht hc.1 hct hright hsum
  have hterr := fun a ha => h.tiled.header_subset (a := a) ha
  obtain ⟨hsane, hgrow, -⟩ := h.edit hedits hterr
  have hterr' : territory (R₁ ++ ⟨base, len, A ++ t :: B⟩ :: R₂) =
      territory (R₁ ++ ⟨base, len, A ++ t :: c :: B⟩ :: R₂) :=
    territory_replace rfl rfl
  have htags : tags (R₁ ++ ⟨base, len, A ++ t :: B⟩ :: R₂) =
      tags (R₁ ++ ⟨base, len, A ++ t :: c :: B⟩ :: R₂) \ {c} := by
    ext a
    rw [mem_tags_middle, mem_without hnd]
    constructor
    · rintro (ha | ⟨ha, hac⟩)
      · exact ⟨mem_tags_middle.mpr (.inl ha),
          fun heq : a = c => h.tiled.not_mem_tags ha (heq ▸ by simp)⟩
      · exact ⟨mem_tags_middle.mpr (.inr ha), hac⟩
    · rintro ⟨ha, hac⟩
      rcases mem_tags_middle.mp ha with ha | ha
      · exact .inl ha
      · exact .inr ⟨ha, hac⟩
  have hidx : ∀ a ∈ tags (R₁ ++ ⟨base, len, A ++ t :: c :: B⟩ :: R₂),
      (s.absorb t c).get .index a = s.get .index a :=
        hab.rest .index (by decide) (by decide) (by decide)
  refine ⟨⟨⟨hsane, ?_, h.tiled.absorbed hab⟩, ?_⟩, hab, htags, ?_, ?_, hcount, hinit⟩
  · rw [hterr']
    exact fun x hx => ⟨hgrow.held x (h.held x hx).1, (h.held x hx).2⟩
  · rw [hheads, htags]
    refine h.listed.transfer (fun i a ha => ⟨((h.listed.mem i a).mp ha).1, ?_⟩) (fun a ha => .inl ha.1)
      (fun a ha _ => hidx a ha.1)
        (fun a ha _ => hab.rest .next (by decide) (by decide) (by decide) a ha.1)
      fun a ha _ => hab.rest .prev (by decide) (by decide) (by decide) a ha.1
    rintro rfl
    obtain ⟨-, hi, hne⟩ := (h.listed.mem i a).mp ha
    exact hne (hi.symm.trans hc.2)
  · ext a
    rw [Used, htags]
    constructor
    · rintro ⟨⟨ha, hac⟩, hno⟩
      exact ⟨⟨ha, (hidx a ha).symm.trans hno⟩, hac⟩
    · rintro ⟨⟨ha, hno⟩, hac⟩
      exact ⟨⟨ha, hac⟩, (hidx a ha).trans hno⟩
  · refine h.spares hedits hterr hterr' (fun a ha x hx b hb => h.tiled.content_apart ha.1.1 hb hx)
      (fun a ha => ?_) fun a ha => ?_
    · exact hab.rest .size (by decide) (by decide) (by decide) a ha.1.1
    · rw [hab.realSize a ha.1.1, if_neg fun heq => ha.2 (.inl heq)]

-- ---------------------------------------------------------------------------
-- Splitting
-- ---------------------------------------------------------------------------

theorem Tiled.spaced_insert {F : Headers} (h : Tiled F R) (ht : t ∈ tags R) (hle : t + sizeof ≤ c)
    (hend : c + sizeof ≤ t + F .realSize t) : Spaced (insert c (tags R)) := by
  have hH := h.spaced
  have hapart : ∀ a ∈ tags R, a + sizeof ≤ c ∨ c + sizeof ≤ a := by
    intro a ha
    rcases eq_or_ne a t with rfl | hat
    · exact .inl hle
    · have := h.blocks_apart ha ht hat
      obtain ⟨r, hr, ha⟩ := ha
      have := (h.ok r hr).tiles.least_le ha
      omega
  have hspace : c < 2 ^ 64 := by
    obtain ⟨r, hr, ht⟩ := ht
    have := ((h.ok r hr).tiles.inside ht).2
    have := (h.ok r hr).inSpace
    have hsize : 0 < sizeof := by decide
    omega
  have h0 := hH.ne_zero t ht
  exact insert_spaced hH (by omega) hspace hapart

theorem tags_insert : tags (R₁ ++ ⟨base, len, A ++ t :: c :: B⟩ :: R₂) =
    insert c (tags (R₁ ++ ⟨base, len, A ++ t :: B⟩ :: R₂)) := by
  ext a
  have hsplit : a ∈ A ++ t :: c :: B ↔ a = c ∨ a ∈ A ++ t :: B := by
    rw [perm_behind.mem_iff, List.mem_cons]
  rw [mem_tags_middle, hsplit, Set.mem_insert_iff, mem_tags_middle]
  exact or_left_comm

structure SplitOff (own : Set Nat) (s : Heap) (R R' : List Region) (L : Nat → List Nat)
    (t c i : Nat) (s' : Heap) : Prop where
  shaped : Shaped own s' R' (Function.update L i (c :: L i))
  tags : tags R' = insert c (tags R)
  index : ∀ a ∈ Heap.tags R, s'.get .index a = s.get .index a
  whole : ∀ a ∈ Heap.tags R, a ≠ t → (s'.Whole a ↔ s.Whole a)
  rest_not_whole : ¬s'.Whole c
  used : Used s' R' = Used s R
  spares : Spares own (Used s R \ {t}) s R s' R'
  grow : PhysicalMemory.Grow own (territory R) s.pmm s'.pmm
  realSize : ∀ a ∈ Heap.tags R, a ≠ t → s'.get .realSize a = s.get .realSize a
  rest_realSize : i = exponent (s'.get .realSize c - sizeof)
  size : s'.get .size t = s.get .size t
  room : s'.get .realSize t = sizeof + s.get .size t
  content : ∀ x ∈ span (t + sizeof) (s.get .size t), s'.pmm.ram x = s.pmm.ram x
  completePages : s'.completePages = s.completePages
  initialized : s'.initialized = s.initialized

theorem Shaped.splitTag (h : Shaped own s (R₁ ++ ⟨base, len, A ++ t :: B⟩ :: R₂) L)
    (ht : t ∈ Used s (R₁ ++ ⟨base, len, A ++ t :: B⟩ :: R₂))
    (hroom : s.get .size t + 2 * sizeof ≤ s.get .realSize t) :
    SplitOff own s (R₁ ++ ⟨base, len, A ++ t :: B⟩ :: R₂)
      (R₁ ++ ⟨base, len, A ++ t :: (t + sizeof + s.get .size t) :: B⟩ :: R₂) L t
        (t + sizeof + s.get .size t)
      (exponent (s.get .realSize t - sizeof - s.get .size t - sizeof)) (s.splitTag t).2 := by
  obtain ⟨htR, htno⟩ := ht
  have hok := (tiled_middle.mp h.tiled).1
  have hsize : 0 < sizeof := by decide
  have hreal : s.get .realSize t < 2 ^ 32 := get_lt s .realSize t
  have hend := (hok.tiles.inside (b := t) (by simp)).2
  have hspace := hok.inSpace
  simp only at hend hspace
  obtain ⟨c, hc⟩ : ∃ c, c = t + sizeof + s.get .size t := ⟨_, rfl⟩
  obtain ⟨rest, hrest⟩ : ∃ rest, rest = s.get .realSize t - sizeof - s.get .size t := ⟨_, rfl⟩
  rw [← hc, ← hrest]
  have heq : (s.splitTag t).2 = (s.divide t c rest).insertTag c (-1) := by
    have hlt : t + sizeof + s.get .size t < 2 ^ 64 := by omega
    have hsub : u32 (subU64 (subU64 (s.get .realSize t) sizeof) (s.get .size t)) = rest := by
      have h₁ : sizeof ≤ s.get .realSize t := by omega
      have h₂ : s.get .size t ≤ s.get .realSize t - sizeof := by omega
      rw [subU64_of_le (by omega) h₁, subU64_of_le (by omega) h₂, ← hrest, u32,
        Nat.mod_eq_of_lt (by omega)]
    rw [Heap.splitTag, hsub, u64_of_lt hlt, ← hc]
  have hH := h.tiled.spaced_insert htR (c := c) (by omega) (by omega)
  have hct : t ≠ c := by omega
  have hright : s.get .splitRight t ≠ 0 →
      s.get .splitRight t ∈ (⟨base, len, A ++ t :: B⟩ : Region).tags :=
    hok.right_mem (by simp)
  have hrestle : rest ≤ s.get .realSize t := by omega
  obtain ⟨hd, hedits, hheads, hcount, hinit⟩ := divide_divided hH (Set.mem_insert_of_mem c htR)
    (Set.mem_insert c _) hct
      (fun h0 => Set.mem_insert_of_mem c (mem_tags_middle.mpr (.inr (hright h0)))) hrestle
  have htiled := h.tiled.divided hd (by omega) (by omega) (by omega)
  have htags : tags (R₁ ++ ⟨base, len, A ++ t :: c :: B⟩ :: R₂) =
      insert c (tags (R₁ ++ ⟨base, len, A ++ t :: B⟩ :: R₂)) :=
    tags_insert
  have hnew : c ∉ tags (R₁ ++ ⟨base, len, A ++ t :: B⟩ :: R₂) := by
    intro hmem
    have hapart := h.tiled.blocks_apart htR hmem hct
    obtain ⟨r, hr, hmem⟩ := hmem
    have := (h.tiled.ok r hr).tiles.least_le hmem
    omega
  have hterr : ∀ a ∈ insert c (tags (R₁ ++ ⟨base, len, A ++ t :: B⟩ :: R₂)),
      span a sizeof ⊆ territory (R₁ ++ ⟨base, len, A ++ t :: B⟩ :: R₂) := by
    rintro a (rfl | ha)
    · obtain ⟨r, hr, htr⟩ := htR
      intro x hx
      exact ⟨r, hr, (h.tiled.ok r hr).tag_bytes htr (span_subset (by omega) (by omega) hx)⟩
    · exact h.tiled.header_subset ha
  have hterr' : territory (R₁ ++ ⟨base, len, A ++ t :: c :: B⟩ :: R₂) =
      territory (R₁ ++ ⟨base, len, A ++ t :: B⟩ :: R₂) :=
    territory_replace rfl rfl
  obtain ⟨hsane, hgrow, -⟩ := h.edit hedits hterr
  have hpending : Pending own (s.divide t c rest) (R₁ ++ ⟨base, len, A ++ t :: c :: B⟩ :: R₂) L c := by
    refine ⟨⟨hsane, ?_, htiled⟩, htags ▸ Set.mem_insert c _, ?_, ?_, ?_⟩
    · rw [hterr']
      exact fun x hx => ⟨hgrow.held x (h.held x hx).1, (h.held x hx).2⟩
    · rw [hheads, htags]
      have hold : ∀ a ∈ insert c (tags (R₁ ++ ⟨base, len, A ++ t :: B⟩ :: R₂)) \ {c}, a ≠ c :=
        fun a ha heq => ha.2 heq
      refine h.listed.transfer (fun i a ha => ?_) (fun a ha => .inl (ha.1.resolve_left (hold a ha)))
        (fun a ha _ => hd.index a ha.1) (fun a ha _ => ?_) fun a ha _ => ?_
      · have haR := ((h.listed.mem i a).mp ha).1
        exact ⟨Set.mem_insert_of_mem c haR, fun heq : a = c => hnew (heq ▸ haR)⟩
      · rw [hd.next a ha.1, if_neg (hold a ha)]
      · rw [hd.prev a ha.1, if_neg (hold a ha)]
    · rw [hd.next c (Set.mem_insert c _), if_pos rfl]
    · rw [hd.prev c (Set.mem_insert c _), if_pos rfl]
  have hexp : (if (-1 : Int) < 0 then (s.divide t c rest).exponentAt c else (-1 : Int).toNat) =
      exponent (rest - sizeof) := by
    have hrealc : (s.divide t c rest).get .realSize c = rest := by
      rw [hd.realSize c (Set.mem_insert c _), if_neg hct.symm, if_pos rfl]
    have hle : sizeof ≤ rest := by omega
    rw [if_pos (by decide), exponentAt, hrealc, subU64_of_le (by omega) hle, u32,
      Nat.mod_eq_of_lt (by omega)]
  have hins := hpending.insertTag (exponent_lt _) hexp
  have ht0 : t ≠ 0 := h.spaced.ne_zero t htR
  have hcR : c ∈ insert c (tags (R₁ ++ ⟨base, len, A ++ t :: B⟩ :: R₂)) := Set.mem_insert c _
  have hne : ∀ a ∈ tags (R₁ ++ ⟨base, len, A ++ t :: B⟩ :: R₂), a ≠ c := fun a ha hac => hnew (hac ▸ ha)
  have hin : ∀ a ∈ tags (R₁ ++ ⟨base, len, A ++ t :: B⟩ :: R₂),
      a ∈ insert c (tags (R₁ ++ ⟨base, len, A ++ t :: B⟩ :: R₂)) :=
        fun a ha => Set.mem_insert_of_mem c ha
  rw [← heq] at hins
  have hkeep : ∀ f, f ≠ .next → f ≠ .prev → f ≠ .index →
      ∀ a ∈ insert c (tags (R₁ ++ ⟨base, len, A ++ t :: B⟩ :: R₂)),
      (s.splitTag t).2.get f a = (s.divide t c rest).get f a := by
    intro f h₁ h₂ h₃ a ha
    exact hins.pushed.rest f h₁ h₂ h₃ a (htags ▸ ha)
  have hused : Used (s.divide t c rest) (R₁ ++ ⟨base, len, A ++ t :: c :: B⟩ :: R₂) \ {c} =
      Used s (R₁ ++ ⟨base, len, A ++ t :: B⟩ :: R₂) := by
    ext a
    rw [Used, htags]
    constructor
    · rintro ⟨⟨ha, hno⟩, hac⟩
      exact ⟨ha.resolve_left hac, (hd.index a ha).symm.trans hno⟩
    · rintro ⟨ha, hno⟩
      exact ⟨⟨hin a ha, (hd.index a (hin a ha)).trans hno⟩, hne a ha⟩
  have hsub : Used s (R₁ ++ ⟨base, len, A ++ t :: B⟩ :: R₂) ⊆
      Used (s.divide t c rest) (R₁ ++ ⟨base, len, A ++ t :: c :: B⟩ :: R₂) := hused ▸ Set.sdiff_subset
  have hrealt : (s.divide t c rest).get .realSize t = sizeof + s.get .size t := by
    rw [hd.realSize t (hin t htR), if_pos rfl]
    omega
  refine ⟨hins.shaped, htags, fun a ha => ?_,
    fun a ha hat => ?_, ?_, hins.used.trans hused, ?_, ?_,
    fun a ha hat => ?_, ?_, ?_, ?_, fun x hx => ?_, hins.completePages.trans hcount,
    hins.initialized.trans hinit⟩
  · rw [hins.pushed.index a (htags ▸ hin a ha), if_neg (hne a ha), hd.index a (hin a ha)]
  · rw [Whole, Whole, hkeep .splitLeft (by decide) (by decide) (by decide) a (hin a ha),
      hkeep .splitRight (by decide) (by decide) (by decide) a (hin a ha), hd.splitLeft a (hin a ha),
      hd.splitRight a (hin a ha), if_neg hat, if_neg (hne a ha), if_neg (hne a ha)]
    split
    · rename_i har
      have hback : s.get .splitLeft a = t := by
        rw [har]
        exact hok.left_of_right (by simp) (har ▸ h.spaced.ne_zero a ha)
      exact iff_of_false (fun hw => absurd hw.1 (by omega)) fun hw => ht0 (hback.symm.trans hw.1)
    · rfl
  · rintro ⟨hleft, -⟩
    rw [hkeep .splitLeft (by decide) (by decide) (by decide) c hcR, hd.splitLeft c hcR] at hleft
    split at hleft
    · omega
    · rw [if_pos rfl] at hleft
      exact ht0 hleft
  · refine Spares.trans
      (h.spares hedits hterr hterr' (fun a ha x hx b hb => ?_) (fun a ha => hd.size a (hin a ha.1.1))
      fun a ha => ?_) (hins.spares.mono fun a ha => hsub ha.1)
    · rcases hb with rfl | hb
      · have hapart := h.tiled.blocks_apart ha.1.1 htR ha.2
        rw [Heap.content, mem_span] at hx
        rw [mem_span]
        omega
      · exact h.tiled.content_apart ha.1.1 hb hx
    · have hat : a ≠ t := ha.2
      rw [hd.realSize a (hin a ha.1.1), if_neg hat, if_neg (hne a ha.1.1)]
  · exact hgrow.trans (hterr' ▸ hins.grow) fun x hx _ => hx
  · rw [hkeep .realSize (by decide) (by decide) (by decide) a (hin a ha), hd.realSize a (hin a ha),
      if_neg hat, if_neg (hne a ha)]
  · rw [hkeep .realSize (by decide) (by decide) (by decide) c hcR, hd.realSize c hcR,
      if_neg hct.symm, if_pos rfl]
  · rw [hkeep .size (by decide) (by decide) (by decide) t (hin t htR), hd.size t (hin t htR)]
  · rw [hkeep .realSize (by decide) (by decide) (by decide) t (hin t htR), hrealt]
  · rw [hins.spares.content t (hsub ⟨htR, htno⟩) x
      (by rwa [Heap.content, hrealt, Nat.add_sub_cancel_left])]
    refine hedits.ram x ?_
    rw [mem_span] at hx
    rintro a (rfl | ha)
    · rw [mem_span]
      omega
    · refine h.tiled.content_apart htR ha ?_
      rw [Heap.content, mem_span]
      omega

-- ---------------------------------------------------------------------------
-- New blocks
-- ---------------------------------------------------------------------------

theorem pagesFor_spec (n : Nat) : n ≤ pagesFor n * pageSize ∧ pageCount ≤ pagesFor n ∧
    (pagesFor n * pageSize ≤ n + 4095 ∨ pagesFor n = pageCount) := by
  have hround : ∃ pages, (if n % 4096 ≠ 0 then n / 4096 + 1 else n / 4096) = pages ∧ n ≤ pages * 4096 ∧
      pages * 4096 ≤ n + 4095 := by
    refine ⟨_, rfl, ?_, ?_⟩ <;> split <;> omega
  obtain ⟨pages, heq, hle, hge⟩ := hround
  have hpages : pagesFor n = if pages < 16 then 16 else pages := by
    rw [← heq]
    rfl
  show n ≤ pagesFor n * 4096 ∧ 16 ≤ pagesFor n ∧ (pagesFor n * 4096 ≤ n + 4095 ∨ pagesFor n = 16)
  rw [hpages]
  split <;> omega

structure Fresh (own : Set Nat) (s : Heap) (R : List Region) (L : Nat → List Nat) (size t len : Nat)
    (s' : Heap) : Prop where
  shaped : Shaped own s' (⟨t, len, [t]⟩ :: R) L
  not_mem : t ∉ tags R
  free : ∀ x ∈ span t len, s.pmm.Free x
  get : ∀ f, ∀ a ∈ tags R, s'.get f a = s.get f a
  whole : s'.Whole t
  used : Used s' (⟨t, len, [t]⟩ :: R) = insert t (Used s R)
  spares : Spares own (Used s R) s R s' (⟨t, len, [t]⟩ :: R)
  grow : PhysicalMemory.Grow own (territory R) s.pmm s'.pmm
  realSize : s'.get .realSize t = len
  room : size + sizeof ≤ len
  completePages : s'.completePages = s.completePages
  initialized : s'.initialized = s.initialized

theorem Shaped.allocateNewTag {size : Nat} (h : Shaped own s R L)
    (hsize : size + sizeof + 4096 ≤ 2 ^ 32)
    (hnew : s.allocateNewTag size = some (t, s')) :
    Fresh own s R L size t (4096 * pagesFor (size + sizeof)) s' := by
  obtain ⟨⟨p, pmm⟩, halloc, heq⟩ := Option.map_eq_some_iff.mp hnew
  obtain ⟨rfl, rfl⟩ := Prod.mk.inj heq
  have hu32 : u32 (size + sizeof) = size + sizeof := Nat.mod_eq_of_lt (by omega)
  rw [hu32] at halloc ⊢
  obtain ⟨hroom, hpages, hupper⟩ := pagesFor_spec (size + sizeof)
  obtain ⟨n, hn⟩ : ∃ n, n = pagesFor (size + sizeof) := ⟨_, rfl⟩
  rw [← hn] at halloc hroom hpages hupper ⊢
  have hpc : pageCount = 16 := rfl
  have hps : n * pageSize = 4096 * n := Nat.mul_comm ..
  rw [hps] at hroom hupper
  have hal := h.sane.alloc (by omega) halloc
  have hp0 : p ≠ 0 := PhysicalMemory.alloc_ne_null halloc
  have hspace : p + 4096 * n ≤ 2 ^ 63 := by
    have hlast := (hal.held (p + 4096 * n - 1) ⟨by omega, by omega⟩).1
    have hhigh := hal.sane.inSpace
    rw [PhysicalMemory.limit] at hlast
    omega
  -- the new block is none of the old ones
  have hfree : ∀ x ∈ span p (4096 * n), x ∉ territory R := fun x hx hxR =>
    (h.held x hxR).1.not_free (hal.free x hx)
  have hout : ∀ x ∈ span p (4096 * n), x ∉ own := fun x hx => h.sane.apart x (hal.free x hx)
  have hkeep : ∀ x, s.pmm.Held x → x ∉ own → pmm.ram x = s.pmm.ram x := fun x hx hxo =>
    hal.grow.ram x hx hxo (Set.notMem_empty x)
  have hsize : 0 < sizeof := by decide
  have hheader : span p sizeof ⊆ span p (4096 * n) := span_subset (le_refl p) (by omega)
  have hapart := h.tiled.header_apart (Set.disjoint_left.mpr fun x hx => hfree x (hheader hx))
  have hnot : p ∉ tags R := fun hmem => by
    have := hapart p hmem
    omega
  have hH : Spaced (insert p (tags R)) := insert_spaced h.spaced hp0 (by omega) hapart
  have hold : ∀ f, ∀ a ∈ tags R, Heap.get { s with pmm } f a = s.get f a := fun f a ha =>
    readLE_congr fun x hx => by
      have hxT := h.tiled.header_subset ha (span_subset (Nat.le_add_right a f.offset)
        (by have := BoundaryTag.fits f; omega) hx)
      exact hkeep x (h.held x hxT).1 (h.held x hxT).2
  have hsmall : size < 2 ^ 32 := by omega
  have hlen : n * pageSize < 2 ^ 32 := by omega
  obtain ⟨hst, hedits, hheads, hcount, hinit⟩ :=
    stamp_stamped (s := { s with pmm }) hH (Set.mem_insert p _) hsmall hlen
  have hget : ∀ f, ∀ a ∈ tags R, (stamp { s with pmm } p size n).get f a = s.get f a := fun f a ha =>
    (hst.other f a (Set.mem_insert_of_mem p ha) fun heq => hnot (heq ▸ ha)).trans (hold f a ha)
  obtain ⟨hsane, hgrow, hram⟩ := hedits.sane (T := span p (4096 * n)) hal.sane
    (fun x hx => ⟨hal.held x hx, hout x hx⟩) fun a ha => by
      obtain rfl : a = p := ha
      exact hheader
  have htags : tags (⟨p, 4096 * n, [p]⟩ :: R) = insert p (tags R) := by
    ext a
    have hcons : a ∈ tags ([] ++ ⟨p, 4096 * n, [p]⟩ :: R) ↔ a ∈ tags ([] ++ R) ∨ a ∈ [p] :=
      mem_tags_middle
    refine hcons.trans ?_
    rw [Set.mem_insert_iff, List.mem_singleton, List.nil_append, or_comm]
  have hreal : (stamp { s with pmm } p size n).get .realSize p = 4096 * n := hst.realSize.trans hps
  have hok : Region.Ok (stamp { s with pmm } p size n).get ⟨p, 4096 * n, [p]⟩ := by
    refine ⟨⟨rfl, by omega, ?_⟩, dlinked_singleton ?_ ?_, ?_, ⟨hal.aligned, n, hpages, rfl⟩, hp0,
      ?_, hspace⟩
    · rw [hreal]
      rfl
    · rw [hst.splitRight, link_zero]
    · rw [hst.splitLeft, link_zero]
    · intro a ha
      rw [List.mem_singleton.mp ha]
      exact hst.magic
    · show 4096 * n < 2 ^ 32
      omega
  refine ⟨⟨⟨hsane, ?_, ?_⟩, ?_⟩, hnot, hal.free, hget, ⟨hst.splitLeft, hst.splitRight⟩, ?_, ?_, ?_,
    hreal, hroom, hcount, hinit⟩
  · rintro x ⟨r, hr, hx⟩
    rcases List.mem_cons.mp hr with rfl | hr
    · exact ⟨hgrow.held x (hal.held x hx), hout x hx⟩
    · obtain ⟨hxh, hxo⟩ := h.held x ⟨r, hr, hx⟩
      exact ⟨hgrow.held x (hal.grow.held x hxh), hxo⟩
  · rw [← List.nil_append (⟨p, 4096 * n, [p]⟩ :: R)]
    refine tiled_middle.mpr ⟨hok, h.tiled.congr (hget _) (hget _) (hget _) (hget _), fun q hq => ?_⟩
    exact Set.disjoint_left.mpr fun x hx hxq => hfree x hx ⟨q, hq, hxq⟩
  · rw [hheads, htags]
    refine h.listed.transfer (fun i a ha => Set.mem_insert_of_mem p ((h.listed.mem i a).mp ha).1) ?_
      (fun a _ ha => hget _ a ha) (fun a _ ha => hget _ a ha) fun a _ ha => hget _ a ha
    rintro a (rfl | ha)
    · exact .inr ⟨hst.index, hst.next, hst.prev⟩
    · exact .inl ha
  · ext a
    rw [Used, htags]
    constructor
    · rintro ⟨rfl | ha, hno⟩
      · exact .inl rfl
      · exact .inr ⟨ha, (hget _ a ha).symm.trans hno⟩
    · rintro (rfl | ⟨ha, hno⟩)
      · exact ⟨Set.mem_insert a _, hst.index⟩
      · exact ⟨Set.mem_insert_of_mem p ha, (hget _ a ha).trans hno⟩
  · have hsame : ∀ x, s.pmm.Held x → x ∉ own →
        (stamp { s with pmm } p size n).pmm.ram x = s.pmm.ram x := fun x hx hxo =>
      (hram x fun hxp => hx.not_free (hal.free x hxp)).trans (hkeep x hx hxo)
    refine ⟨fun a ha => hget _ a ha.1, fun a ha => hget _ a ha.1,
      fun a ha x hx => ?_, fun x hx hxo hxR => ?_, fun x hx hxR => ?_, ?_⟩
    · obtain ⟨r, hr, har⟩ := ha.1
      have hxT : x ∈ territory R := by
        have hle := (h.tiled.ok r hr).tiles.least_le har
        refine ⟨r, hr, (h.tiled.ok r hr).tag_bytes har ?_⟩
        rw [content, mem_span] at hx
        exact ⟨by omega, by omega⟩
      exact hsame x (h.held x hxT).1 (h.held x hxT).2
    · refine ⟨hgrow.held x (hal.grow.held x hx), ?_, hsame x hx hxo⟩
      rintro ⟨r, hr, hxr⟩
      rcases List.mem_cons.mp hr with rfl | hr
      · exact hx.not_free (hal.free x hxr)
      · exact hxR ⟨r, hr, hxr⟩
    · have hown : ∀ x ∈ own, (stamp { s with pmm } p size n).pmm.ram x = pmm.ram x := fun x hx =>
        hram x fun hxp => hout x hxp hx
      rw [hedits.pmm, hal.sane.held_write hown] at hx
      refine ⟨hal.held_of_not_mem hx fun hxp => hxR ⟨_, List.mem_cons_self, hxp⟩, ?_⟩
      rintro ⟨r, hr, hxr⟩
      exact hxR ⟨r, List.mem_cons_of_mem _ hr, hxr⟩
    · rw [hedits.pmm]
      exact hal.grow.limit
  · exact (hal.grow.mono fun x hx => hx.elim).trans hgrow fun x hx hheld =>
      absurd (hal.free x hx) hheld.not_free

-- ---------------------------------------------------------------------------
-- Blocks that go, and writes to blocks
-- ---------------------------------------------------------------------------

theorem territory_middle : x ∈ territory (R₁ ++ r :: R₂) ↔ x ∈ territory (R₁ ++ R₂) ∨ x ∈ r.bytes := by
  constructor
  · rintro ⟨q, hq, hx⟩
    rcases List.mem_append.mp hq with hq | hq
    · exact .inl ⟨q, List.mem_append_left R₂ hq, hx⟩
    · rcases List.mem_cons.mp hq with rfl | hq
      · exact .inr hx
      · exact .inl ⟨q, List.mem_append_right R₁ hq, hx⟩
  · rintro (⟨q, hq, hx⟩ | hx)
    · refine ⟨q, ?_, hx⟩
      rcases List.mem_append.mp hq with hq | hq <;> simp [hq]
    · exact ⟨r, by simp, hx⟩

theorem Tiled.content_subset (h : Tiled s.get R) (ha : a ∈ tags R) : content s a ⊆ territory R := by
  obtain ⟨r, hr, har⟩ := ha
  have hle := (h.ok r hr).tiles.least_le har
  intro x hx
  refine ⟨r, hr, (h.ok r hr).tag_bytes har ?_⟩
  rw [content, mem_span] at hx
  exact ⟨by omega, by omega⟩

structure Released (own : Set Nat) (s : Heap) (R R' : List Region) (L : Nat → List Nat) (t : Nat)
    (s' : Heap) : Prop where
  shaped : Shaped own s' R' L
  get : ∀ f, ∀ a ∈ tags R', s'.get f a = s.get f a
  tags : tags R' = tags R \ {t}
  spares : Spares own (Used s R \ {t}) s R s' R'

theorem Shaped.release (h : Shaped own s (R₁ ++ ⟨base, len, [t]⟩ :: R₂) L)
    (ht : t ∈ Used s (R₁ ++ ⟨base, len, [t]⟩ :: R₂)) :
    Released own s (R₁ ++ ⟨base, len, [t]⟩ :: R₂) (R₁ ++ R₂) L t
      { s with pmm := s.pmm.free t (pagesFor (s.get .realSize t)) } := by
  obtain ⟨hok, hrest, hdisj⟩ := tiled_middle.mp h.tiled
  obtain ⟨hbase, -, hend⟩ := hok.tiles
  obtain ⟨haligned, n, hn, hlen⟩ := hok.pages
  simp only at hbase haligned hlen
  have hreal : s.get .realSize t = 4096 * n := by
    have hend' : base + s.get .realSize t = base + len := hend
    omega
  have hpages : pagesFor (s.get .realSize t) = n := by
    obtain ⟨hroom, -, hupper⟩ := pagesFor_spec (s.get .realSize t)
    have hps : pagesFor (s.get .realSize t) * pageSize = 4096 * pagesFor (s.get .realSize t) :=
      Nat.mul_comm ..
    omega
  have hbytes : ∀ x, x ∈ span t (4096 * n) ↔ x ∈ (⟨base, len, [t]⟩ : Region).bytes := fun x => by
    rw [Region.bytes, hbase, hlen]
  have hheld : ∀ x ∈ span t (4096 * n), s.pmm.Held x ∧ x ∉ own := fun x hx =>
    h.held x (territory_middle.mpr (.inr ((hbytes x).mp hx)))
  obtain ⟨hsane, hram, hkeep⟩ :=
    h.sane.release (hbase ▸ haligned) (fun x hx => (hheld x hx).1) fun x hx => (hheld x hx).2
  rw [hpages]
  have hout : ∀ x ∈ territory (R₁ ++ R₂), x ∉ span t (4096 * n) := by
    rintro x ⟨q, hq, hx⟩ hxt
    exact Set.disjoint_left.mp (hdisj q hq) ((hbytes x).mp hxt) hx
  have hold : ∀ x ∈ territory (R₁ ++ R₂), s.pmm.Held x ∧ x ∉ own :=
    fun x hx => h.held x (territory_middle.mpr (.inl hx))
  have hget : ∀ f, ∀ a ∈ tags (R₁ ++ R₂),
      Heap.get { s with pmm := s.pmm.free t n } f a = s.get f a := fun f a ha =>
    readLE_congr fun x hx => by
      have hxT := hrest.header_subset ha (span_subset (Nat.le_add_right a f.offset)
        (by have := BoundaryTag.fits f; omega) hx)
      exact hram x (hold x hxT).2
  have htags : tags (R₁ ++ R₂) = tags (R₁ ++ ⟨base, len, [t]⟩ :: R₂) \ {t} := by
    ext a
    constructor
    · intro ha
      exact ⟨mem_tags_middle.mpr (.inl ha),
        fun heq : a = t => h.tiled.not_mem_tags ha (heq ▸ List.mem_singleton_self t)⟩
    · rintro ⟨ha, hat⟩
      rcases mem_tags_middle.mp ha with ha | ha
      · exact ha
      · exact absurd (List.mem_singleton.mp ha) hat
  refine ⟨⟨⟨hsane, fun x hx => ⟨(hkeep x).mpr ⟨(hold x hx).1, hout x hx⟩, (hold x hx).2⟩, ?_⟩, ?_⟩,
    hget, htags, ?_⟩
  · exact hrest.congr (hget _) (hget _) (hget _) (hget _)
  · refine h.listed.transfer (fun i a ha => ?_) (fun a ha => .inl (mem_tags_middle.mpr (.inl ha)))
      (fun a ha _ => hget _ a ha) (fun a ha _ => hget _ a ha) fun a ha _ => hget _ a ha
    obtain ⟨haR, hi, hne⟩ := (h.listed.mem i a).mp ha
    rw [htags]
    refine ⟨haR, ?_⟩
    rintro rfl
    exact hne (hi.symm.trans ht.2)
  · have hmem : ∀ a ∈ Used s (R₁ ++ ⟨base, len, [t]⟩ :: R₂) \ {t}, a ∈ tags (R₁ ++ R₂) :=
      fun a ha => htags ▸ ⟨ha.1.1, ha.2⟩
    refine ⟨fun a ha => hget _ a (hmem a ha),
      fun a ha => hget _ a (hmem a ha), fun a ha x hx => ?_,
      fun x hx hxo hxR => ?_, fun x hx hxR => ?_, rfl⟩
    · exact hram x (hold x (hrest.content_subset (hmem a ha) hx)).2
    · rw [territory_middle, not_or] at hxR
      exact ⟨(hkeep x).mpr ⟨hx, fun hxt => hxR.2 ((hbytes x).mp hxt)⟩, hxR.1, hram x hxo⟩
    · obtain ⟨hheldx, hxt⟩ := (hkeep x).mp hx
      refine ⟨hheldx, fun hxt' => ?_⟩
      exact (territory_middle.mp hxt').elim hxR fun hxb => hxt ((hbytes x).mpr hxb)

structure Written (own : Set Nat) (s : Heap) (R : List Region) (L : Nat → List Nat) (a : Nat)
    (s' : Heap) : Prop where
  shaped : Shaped own s' R L
  get : ∀ f, ∀ b ∈ tags R, s'.get f b = s.get f b
  spares : Spares own (Used s R \ {a}) s R s' R

theorem Shaped.write {ram : Mem} (h : Shaped own s R L) (ha : a ∈ tags R)
    (hram : ∀ x ∉ content s a, ram x = s.pmm.ram x) : Written own s R L a (s.setRam ram) := by
  have hsub := h.tiled.content_subset ha
  obtain ⟨hsane, hgrow⟩ :=
    h.sane.write hram (fun x hx => (h.held x (hsub hx)).1) fun x hx => (h.held x (hsub hx)).2
  have hget : ∀ f, ∀ b ∈ tags R, (s.setRam ram).get f b = s.get f b := fun f b hb =>
    readLE_congr fun x hx => hram x fun hxa => h.tiled.content_apart ha hb hxa
      (span_subset (Nat.le_add_right b f.offset) (by have := BoundaryTag.fits f; omega) hx)
  refine ⟨⟨⟨hsane, fun x hx => ⟨hgrow.held x (h.held x hx).1, (h.held x hx).2⟩, ?_⟩, ?_⟩, hget, ?_⟩
  · exact h.tiled.congr (hget _) (hget _) (hget _) (hget _)
  · exact h.listed.transfer (fun i b hb => ((h.listed.mem i b).mp hb).1) (fun b hb => .inl hb)
      (fun b hb _ => hget _ b hb)
      (fun b hb _ => hget _ b hb) fun b hb _ => hget _ b hb
  · refine ⟨fun b hb => hget _ b hb.1.1, fun b hb => hget _ b hb.1.1,
      fun b hb x hx => hram x fun hxa => ?_, fun x hx _ hxR =>
        ⟨hgrow.held x hx, hxR, hram x fun hxa => hxR (hsub hxa)⟩, fun x hx hxR => ?_, rfl⟩
    · have hapart := h.tiled.blocks_apart hb.1.1 ha hb.2
      rw [content, mem_span] at hx hxa
      omega
    · have hown : ∀ y ∈ own, ram y = s.pmm.ram y :=
        fun y hy => hram y fun hya => (h.held y (hsub hya)).2 hy
      exact ⟨(h.sane.held_write hown).mp hx, hxR⟩

theorem Shaped.setSize {size : Nat} (h : Shaped own s R L) (ht : t ∈ tags R) (hsize : size < 2 ^ 32) :
    Shaped own (s.set .size t size) R L ∧
      (∀ f, ∀ a ∈ tags R, (s.set .size t size).get f a =
        if f = .size ∧ a = t then size else s.get f a) ∧
      Spares own (Used s R \ {t}) s R (s.set .size t size) R ∧
      PhysicalMemory.Grow own (territory R) s.pmm (s.set .size t size).pmm := by
  have hget : ∀ f, ∀ a ∈ tags R, (s.set .size t size).get f a =
      if f = .size ∧ a = t then size else s.get f a :=
    fun f a ha => get_set h.spaced ha ht hsize
  have hother : ∀ f, f ≠ .size → ∀ a ∈ tags R, (s.set .size t size).get f a = s.get f a :=
    fun f hf a ha => by
    rw [hget f a ha, if_neg fun hh => hf hh.1]
  have hedits : Edits (tags R) s (s.set .size t size) := Edits.refl.set ht
  have hterr := fun a ha => h.tiled.header_subset (a := a) ha
  obtain ⟨hsane, hgrow, -⟩ := h.edit hedits hterr
  refine ⟨⟨⟨hsane, fun x hx => ⟨hgrow.held x (h.held x hx).1, (h.held x hx).2⟩, ?_⟩, ?_⟩, hget, ?_,
    hgrow⟩
  · refine h.tiled.congr (hother _ ?_) (hother _ ?_) (hother _ ?_) (hother _ ?_)
    all_goals decide
  · exact h.listed.transfer (fun i a ha => ((h.listed.mem i a).mp ha).1) (fun a ha => .inl ha)
      (fun a ha _ => hother _ (by decide) a ha) (fun a ha _ => hother _ (by decide) a ha)
      fun a ha _ => hother _ (by decide) a ha
  · refine h.spares hedits hterr rfl (fun a ha x hx b hb => h.tiled.content_apart ha.1.1 hb hx)
      (fun a ha => ?_)
      fun a ha => hother _ (by decide) a ha.1.1
    have hat : a ≠ t := ha.2
    rw [hget _ a ha.1.1, if_neg fun hh => hat hh.2]

end

end Heap

end LimineOS
