import LimineOS.Mm.HeapTags

/-!
# The shape of the heap

A region is what the heap got from the page allocator at once. Its blocks tile it
and are linked in this order (`Region.Ok`). The free blocks are in lists
(`Listed`). No helper of the heap breaks this.
-/

namespace LimineOS

open ByteMemory LinkedList Tiling

open BoundaryTag (sizeof noIndex)

namespace Heap

def link (p : Nat) : Option Nat := if p = 0 then none else some p

structure Region where
  base : Nat
  len : Nat
  tags : List Nat

/-- The pages, whatever is in them. -/
def Region.extent (r : Region) : Nat × Nat := (r.base, r.len)

def Region.bytes (r : Region) : Set Nat := span r.base r.len

structure Region.Ok (F : Headers) (r : Region) : Prop where
  tiles : Tiles (F .realSize) sizeof r.base (r.base + r.len) r.tags
  split : DLinked (fun a => link (F .splitRight a)) (fun a => link (F .splitLeft a)) r.tags
  magic : ∀ a ∈ r.tags, F .magic a = liballocMagic
  pages : 4096 ∣ r.base ∧ ∃ n, pageCount ≤ n ∧ r.len = 4096 * n
  base_ne : r.base ≠ 0
  len_lt : r.len < 2 ^ 32
  inSpace : r.base + r.len ≤ 2 ^ 63

def tags (R : List Region) : Set Nat := {a | ∃ r ∈ R, a ∈ r.tags}

def territory (R : List Region) : Set Nat := {x | ∃ r ∈ R, x ∈ r.bytes}

structure Tiled (F : Headers) (R : List Region) : Prop where
  ok : ∀ r ∈ R, r.Ok F
  apart : R.Pairwise fun r r' => Disjoint r.bytes r'.bytes

/-- `L i` is the list of the free tags with index `i`. A tag in no list has no links. -/
structure Listed (F : Headers) (heads : Nat → Nat) (H : Set Nat) (L : Nat → List Nat) : Prop where
  mem : ∀ i a, a ∈ L i ↔ a ∈ H ∧ F .index a = i ∧ i ≠ noIndex
  linked : ∀ i, DLinked (fun a => link (F .next a)) (fun a => link (F .prev a)) (L i)
  nodup : ∀ i, (L i).Nodup
  head : ∀ i, link (heads i) = (L i).head?
  idle : ∀ a ∈ H, F .index a = noIndex → F .next a = 0 ∧ F .prev a = 0
  lt : ∀ i, ∀ a ∈ L i, i < maxExp

section
variable {F F' : Headers} {R R₁ R₂ : List Region} {r r' : Region} {H H' : Set Nat} {L : Nat → List Nat}
  {heads : Nat → Nat} {a b c i p t x base len n : Nat} {A B : List Nat}

theorem mem_territory : x ∈ territory R ↔ ∃ e ∈ R.map Region.extent, x ∈ span e.1 e.2 := by
  simp only [List.mem_map, exists_exists_and_eq_and]
  rfl

theorem territory_congr {R' : List Region} (h : R'.map Region.extent = R.map Region.extent) :
    territory R' = territory R :=
  Set.ext fun x => by rw [mem_territory, mem_territory, h]

theorem link_eq_none : link p = none ↔ p = 0 := by
  unfold link
  split <;> simp_all

theorem link_eq_some : link p = some a ↔ p = a ∧ a ≠ 0 := by
  unfold link
  split
  · rename_i h
    simp only [reduceCtorEq, false_iff, not_and, not_not]
    exact fun ha => ha.symm.trans h
  · rename_i h
    rw [Option.some.injEq]
    exact ⟨fun ha => ⟨ha, ha ▸ h⟩, And.left⟩

theorem link_of_ne (h : p ≠ 0) : link p = some p := if_neg h

theorem link_eq_some_iff (ha : a ≠ 0) : link p = some a ↔ a = p := by
  rw [link_eq_some]
  exact ⟨fun h => h.1.symm, fun h => ⟨h.symm, ha⟩⟩

@[simp] theorem link_zero : link 0 = none := rfl

-- ---------------------------------------------------------------------------
-- Exponents
-- ---------------------------------------------------------------------------

theorem getexpShift_le {left shift : Nat} : shift ≤ getexpShift x left shift ∧
      getexpShift x left shift ≤ shift + left := by
  induction left generalizing shift with
  | zero => exact ⟨le_refl _, le_refl _⟩
  | succ left ih =>
    rw [getexpShift]
    split
    · omega
    · have hnext : shift + 1 ≤ getexpShift x left (shift + 1) ∧
          getexpShift x left (shift + 1) ≤ shift + 1 + left := ih
      omega

theorem getexp_lt (x : Nat) : getexp x < maxExp := by
  have h : getexpShift x (maxExp - minExp) minExp ≤ minExp + (maxExp - minExp) := getexpShift_le.2
  have hsum : minExp + (maxExp - minExp) = maxExp := rfl
  have hpos : 0 < maxExp := by decide
  unfold getexp
  split <;> omega

theorem exponent_lt (x : Nat) : exponent x < maxExp := by
  have h := getexp_lt x
  have hless : minExp < maxExp := by decide
  unfold exponent
  split <;> omega

-- ---------------------------------------------------------------------------
-- Regions
-- ---------------------------------------------------------------------------

theorem Region.Ok.tag_bytes (h : r.Ok F) (ha : a ∈ r.tags) : span a (F .realSize a) ⊆ r.bytes := by
  obtain ⟨hle, hend⟩ := h.tiles.inside ha
  exact span_subset hle hend

theorem Region.Ok.congr (h : r.Ok F) (hreal : ∀ a ∈ r.tags, F' .realSize a = F .realSize a)
    (hleft : ∀ a ∈ r.tags, F' .splitLeft a = F .splitLeft a)
    (hright : ∀ a ∈ r.tags, F' .splitRight a = F .splitRight a)
    (hmagic : ∀ a ∈ r.tags, F' .magic a = F .magic a) : r.Ok F' where
  tiles := h.tiles.congr hreal
  split := h.split.congr (fun a ha => by rw [hright a ha]) fun a ha => by rw [hleft a ha]
  magic a ha := (hmagic a ha).trans (h.magic a ha)
  pages := h.pages
  base_ne := h.base_ne
  len_lt := h.len_lt
  inSpace := h.inSpace

theorem Tiled.congr (h : Tiled F R) (hreal : ∀ a ∈ tags R, F' .realSize a = F .realSize a)
    (hleft : ∀ a ∈ tags R, F' .splitLeft a = F .splitLeft a)
    (hright : ∀ a ∈ tags R, F' .splitRight a = F .splitRight a)
    (hmagic : ∀ a ∈ tags R, F' .magic a = F .magic a) : Tiled F' R :=
  ⟨fun r hr => (h.ok r hr).congr (fun a ha => hreal a ⟨r, hr, ha⟩) (fun a ha => hleft a ⟨r, hr, ha⟩)
    (fun a ha => hright a ⟨r, hr, ha⟩) fun a ha => hmagic a ⟨r, hr, ha⟩, h.apart⟩

theorem mem_tags_middle : a ∈ tags (R₁ ++ r :: R₂) ↔ a ∈ tags (R₁ ++ R₂) ∨ a ∈ r.tags := by
  constructor
  · rintro ⟨q, hq, ha⟩
    rcases List.mem_append.mp hq with hq | hq
    · exact .inl ⟨q, List.mem_append_left R₂ hq, ha⟩
    · rcases List.mem_cons.mp hq with rfl | hq
      · exact .inr ha
      · exact .inl ⟨q, List.mem_append_right R₁ hq, ha⟩
  · rintro (⟨q, hq, ha⟩ | ha)
    · refine ⟨q, ?_, ha⟩
      rcases List.mem_append.mp hq with hq | hq
      · exact List.mem_append_left _ hq
      · exact List.mem_append_right R₁ (List.mem_cons_of_mem r hq)
    · exact ⟨r, by simp, ha⟩

theorem Tiled.blocks_apart (h : Tiled F R) (ha : a ∈ tags R) (hb : b ∈ tags R) (hne : a ≠ b) :
    a + F .realSize a ≤ b ∨ b + F .realSize b ≤ a := by
  obtain ⟨r, hr, ha⟩ := ha
  obtain ⟨r', hr', hb⟩ := hb
  by_cases heq : r = r'
  · subst heq
    exact (h.ok r hr).tiles.apart ha hb hne
  · have hsymm : Std.Symm fun r r' : Region => Disjoint r.bytes r'.bytes := ⟨fun _ _ h => h.symm⟩
    have hdisj := h.apart.forall hr hr' heq
    obtain ⟨hle, hend⟩ := (h.ok r hr).tiles.inside ha
    obtain ⟨hle', hend'⟩ := (h.ok r' hr').tiles.inside hb
    have hleast := (h.ok r hr).tiles.least_le ha
    have hleast' := (h.ok r' hr').tiles.least_le hb
    have hsize : 0 < sizeof := by decide
    have hout : ∀ x ∈ r.bytes, x ∉ r'.bytes := Set.disjoint_left.mp hdisj
    have h₁ := hout a ⟨hle, by omega⟩
    have h₂ := hout b
    simp only [Region.bytes, mem_span] at h₁ h₂
    omega

theorem Tiled.spaced (h : Tiled F R) : Spaced (tags R) where
  apart a ha b hb hne := by
    obtain ⟨r, hr, ha'⟩ := ha
    obtain ⟨r', hr', hb'⟩ := hb
    have hleast := (h.ok r hr).tiles.least_le ha'
    have hleast' := (h.ok r' hr').tiles.least_le hb'
    have := h.blocks_apart ⟨r, hr, ha'⟩ ⟨r', hr', hb'⟩ hne
    omega
  ne_zero := by
    rintro a ⟨r, hr, ha⟩ rfl
    have := ((h.ok r hr).tiles.inside ha).1
    exact (h.ok r hr).base_ne (by omega)
  inSpace := by
    rintro a ⟨r, hr, ha⟩
    have := ((h.ok r hr).tiles.inside ha).2
    have := (h.ok r hr).inSpace
    omega

instance : Std.Symm fun r r' : Region => Disjoint r.bytes r'.bytes := ⟨fun _ _ h => h.symm⟩

theorem tiled_middle : Tiled F (R₁ ++ r :: R₂) ↔
    r.Ok F ∧ Tiled F (R₁ ++ R₂) ∧ ∀ q ∈ R₁ ++ R₂, Disjoint r.bytes q.bytes := by
  constructor
  · rintro ⟨hok, hpair⟩
    rw [List.pairwise_middle fun h => h.symm, List.pairwise_cons] at hpair
    refine ⟨hok r (by simp), ⟨fun q hq => hok q ?_, hpair.2⟩, hpair.1⟩
    rcases List.mem_append.mp hq with hq | hq <;> simp [hq]
  · rintro ⟨hr, ⟨hok, hpair⟩, hdisj⟩
    refine ⟨fun q hq => ?_, ?_⟩
    · rcases List.mem_append.mp hq with hq | hq
      · exact hok q (List.mem_append_left R₂ hq)
      · rcases List.mem_cons.mp hq with rfl | hq
        · exact hr
        · exact hok q (List.mem_append_right R₁ hq)
    · rw [List.pairwise_middle fun h => h.symm, List.pairwise_cons]
      exact ⟨hdisj, hpair⟩

theorem Tiled.not_mem_tags (h : Tiled F (R₁ ++ r :: R₂)) (ha : a ∈ tags (R₁ ++ R₂)) : a ∉ r.tags := by
  obtain ⟨hr, hrest, hdisj⟩ := tiled_middle.mp h
  obtain ⟨q, hq, ha⟩ := ha
  intro har
  have hsize : 0 < sizeof := by decide
  have hin : ∀ {q : Region}, q.Ok F → a ∈ q.tags → a ∈ q.bytes := fun hq ha => by
    have := hq.tiles.least_le ha
    exact hq.tag_bytes ha ⟨le_refl a, by omega⟩
  exact Set.disjoint_left.mp (hdisj q hq) (hin hr har) (hin (hrest.ok q hq) ha)

/-- One region changes and keeps its place. -/
theorem Tiled.replace (h : Tiled F (R₁ ++ r :: R₂)) (hr' : r'.Ok F') (hbase : r'.base = r.base)
    (hlen : r'.len = r.len)
    (hsame : ∀ f, ∀ a ∈ tags (R₁ ++ R₂), f = .realSize ∨ f = .splitLeft ∨ f = .splitRight ∨
      f = .magic → F' f a = F f a) :
    Tiled F' (R₁ ++ r' :: R₂) := by
  obtain ⟨-, hrest, hdisj⟩ := tiled_middle.mp h
  have hbytes : r'.bytes = r.bytes := by rw [Region.bytes, Region.bytes, hbase, hlen]
  refine tiled_middle.mpr
    ⟨hr', hrest.congr (fun a ha => ?_) (fun a ha => ?_) (fun a ha => ?_) (fun a ha => ?_),
      hbytes ▸ hdisj⟩
  all_goals exact hsame _ a ha (by simp)

theorem Region.Ok.right_split (h : r.Ok F) (ha : a ∈ r.tags) (h0 : F .splitRight a ≠ 0) :
    ∃ A B, r.tags = A ++ a :: F .splitRight a :: B :=
  h.split.next_split ha (link_of_ne h0)

theorem Region.Ok.left_split (h : r.Ok F) (ha : a ∈ r.tags) (h0 : F .splitLeft a ≠ 0) :
    ∃ A B, r.tags = A ++ F .splitLeft a :: a :: B :=
  h.split.prev_split ha (link_of_ne h0)

theorem Region.Ok.right_mem (h : r.Ok F) (ha : a ∈ r.tags) (h0 : F .splitRight a ≠ 0) :
    F .splitRight a ∈ r.tags := by
  obtain ⟨A, B, hAB⟩ := h.right_split ha h0
  rw [hAB]
  simp

theorem Region.Ok.left_mem (h : r.Ok F) (ha : a ∈ r.tags) (h0 : F .splitLeft a ≠ 0) :
    F .splitLeft a ∈ r.tags := by
  obtain ⟨A, B, hAB⟩ := h.left_split ha h0
  rw [hAB]
  simp

theorem Region.Ok.left_of_right (h : r.Ok F) (ha : a ∈ r.tags) (h0 : F .splitRight a ≠ 0) :
    F .splitLeft (F .splitRight a) = a := by
  obtain ⟨A, B, hAB⟩ := h.right_split ha h0
  have hlast : link (F .splitLeft (F .splitRight a)) = (A ++ [a]).getLast? :=
    (h.split (A ++ [a]) (F .splitRight a) B (by simpa using hAB)).2
  rw [List.getLast?_concat, link_eq_some] at hlast
  exact hlast.1

theorem Region.Ok.nodup (h : r.Ok F) : r.tags.Nodup := h.tiles.nodup (by decide)

theorem Tiled.absorbed (h : Tiled F (R₁ ++ ⟨base, len, A ++ t :: c :: B⟩ :: R₂))
    (hab : Absorbed F F' (tags (R₁ ++ ⟨base, len, A ++ t :: c :: B⟩ :: R₂)) t c) :
    Tiled F' (R₁ ++ ⟨base, len, A ++ t :: B⟩ :: R₂) := by
  have hok := (tiled_middle.mp h).1
  have hH := h.spaced
  have hmem : ∀ a ∈ A ++ t :: c :: B, a ∈ tags (R₁ ++ ⟨base, len, A ++ t :: c :: B⟩ :: R₂) :=
    fun a ha =>
    mem_tags_middle.mpr (.inr ha)
  have hnd : (A ++ t :: c :: B).Nodup := hok.nodup
  have htc : c ≠ t ∧ c ∉ A ++ B ∧ t ∉ A ++ B := by
    rw [List.nodup_append, List.nodup_cons, List.nodup_cons] at hnd
    obtain ⟨-, ⟨htcB, hcB, -⟩, hdisj⟩ := hnd
    have hcA : c ∉ A := fun hA => hdisj c hA c (by simp) rfl
    have htA : t ∉ A := fun hA => hdisj t hA t (by simp) rfl
    simp only [List.mem_cons, not_or] at htcB
    simp only [List.mem_append, not_or]
    exact ⟨fun h => htcB.1 h.symm, ⟨hcA, hcB⟩, htA, htcB.2⟩
  have hsub : ∀ a ∈ A ++ t :: B, a ∈ A ++ t :: c :: B := fun a ha => by
    simp only [List.mem_append, List.mem_cons] at ha ⊢
    tauto
  have hleft : F .splitLeft c = t := by
    have hlast : link (F .splitLeft c) = (A ++ [t]).getLast? := (hok.split (A ++ [t]) c B (by simp)).2
    rw [List.getLast?_concat, link_eq_some] at hlast
    exact hlast.1
  refine h.replace ⟨?_, ?_, ?_, hok.pages, hok.base_ne, hok.len_lt, hok.inSpace⟩ rfl rfl
    fun f a ha hf => ?_
  · refine hok.tiles.merge ?_ fun d hd => ?_
    · rw [hab.realSize t (hmem t (by simp)), if_pos rfl]
    · have hdt : d ≠ t := fun heq => htc.2.2 (heq ▸ hd)
      have hd' : d ∈ A ++ t :: B := by
        rcases List.mem_append.mp hd with hd | hd <;> simp [hd]
      rw [hab.realSize d (hmem d (hsub d hd')), if_neg hdt]
  · have hsplit : DLinked (fun a => link (F .splitRight a)) (fun a => link (F .splitLeft a))
        ((A ++ [t]) ++ c :: B) := by
      simpa using hok.split
    have herase : DLinked (fun a => link (F' .splitRight a)) (fun a => link (F' .splitLeft a))
        ((A ++ [t]) ++ B) := by
      refine hsplit.erase (by simpa using hnd) (fun a ha => ?_) fun a ha => ?_
      · have ha' := hmem a (hsub a (by simpa using ha))
        simp only [hab.splitRight a ha', hleft, link_eq_some_iff (hH.ne_zero a ha')]
        split <;> rfl
      · have ha' := hmem a (hsub a (by simpa using ha))
        simp only [hab.splitLeft a ha', hleft, link_eq_some_iff (hH.ne_zero a ha')]
        split <;> rfl
    simpa using herase
  · intro a ha
    have ha' := hsub a ha
    rw [hab.rest .magic (by decide) (by decide) (by decide) a (hmem a ha')]
    exact hok.magic a ha'
  · have ha' : a ∈ tags (R₁ ++ ⟨base, len, A ++ t :: c :: B⟩ :: R₂) := mem_tags_middle.mpr (.inl ha)
    have hout := h.not_mem_tags ha
    have hat : a ≠ t := by
      rintro rfl
      exact hout (by simp)
    have har : a ≠ F .splitRight c := by
      rintro heq
      exact hout (heq ▸ hok.right_mem (a := c) (by simp) (heq ▸ hH.ne_zero a ha'))
    rcases hf with rfl | rfl | rfl | rfl
    · rw [hab.realSize a ha', if_neg hat]
    · rw [hab.splitLeft a ha', if_neg har]
    · rw [hab.splitRight a ha', if_neg hat]
    · exact hab.rest .magic (by decide) (by decide) (by decide) a ha'

theorem Tiled.divided {rest : Nat} (h : Tiled F (R₁ ++ ⟨base, len, A ++ t :: B⟩ :: R₂))
    (hd : Divided F F' (insert c (tags (R₁ ++ ⟨base, len, A ++ t :: B⟩ :: R₂))) t c rest)
    (hc : t + (F .realSize t - rest) = c) (hleast : sizeof + rest ≤ F .realSize t)
    (hrest : sizeof ≤ rest) :
    Tiled F' (R₁ ++ ⟨base, len, A ++ t :: c :: B⟩ :: R₂) := by
  have hok := (tiled_middle.mp h).1
  have hH := h.spaced
  have hsize : 0 < sizeof := by decide
  have hmem : ∀ a ∈ A ++ t :: B, a ∈ tags (R₁ ++ ⟨base, len, A ++ t :: B⟩ :: R₂) := fun a ha =>
    mem_tags_middle.mpr (.inr ha)
  have hin : ∀ a ∈ tags (R₁ ++ ⟨base, len, A ++ t :: B⟩ :: R₂),
      a ∈ insert c (tags (R₁ ++ ⟨base, len, A ++ t :: B⟩ :: R₂)) :=
        fun a ha => Set.mem_insert_of_mem c ha
  have hnew : c ∉ tags (R₁ ++ ⟨base, len, A ++ t :: B⟩ :: R₂) := by
    intro hmemc
    have hct : c ≠ t := by omega
    obtain ⟨r, hr, hcr⟩ := hmemc
    have := (h.ok r hr).tiles.least_le hcr
    have := h.blocks_apart ⟨r, hr, hcr⟩ (hmem t (by simp)) hct
    omega
  have hne : ∀ a ∈ tags (R₁ ++ ⟨base, len, A ++ t :: B⟩ :: R₂), a ≠ c := fun a ha heq => hnew (heq ▸ ha)
  have hct : c ≠ t := (hne t (hmem t (by simp))).symm
  have hnd : (A ++ t :: B).Nodup := hok.nodup
  have htAB : t ∉ A ++ B := by
    rw [List.nodup_append, List.nodup_cons] at hnd
    obtain ⟨-, ⟨htB, -⟩, hdisj⟩ := hnd
    simp only [List.mem_append, not_or]
    exact ⟨fun hA => hdisj t hA t (by simp) rfl, htB⟩
  have hright : F .splitRight t ≠ c := fun heq => by
    have hc0 : c ≠ 0 := by
      have := hH.ne_zero t (hmem t (by simp))
      omega
    exact hnew (heq ▸ hmem _ (hok.right_mem (a := t) (by simp) (heq ▸ hc0)))
  have htR := hin t (hmem t (by simp))
  have hcR : c ∈ insert c (tags (R₁ ++ ⟨base, len, A ++ t :: B⟩ :: R₂)) := Set.mem_insert c _
  have hrealt : F' .realSize t = F .realSize t - rest := by rw [hd.realSize t htR, if_pos rfl]
  have hrealc : F' .realSize c = rest := by rw [hd.realSize c hcR, if_neg hct, if_pos rfl]
  refine h.replace ⟨?_, ?_, ?_, hok.pages, hok.base_ne, hok.len_lt, hok.inSpace⟩ rfl rfl
    fun f a ha hf => ?_
  · refine hok.tiles.split (by omega) (by omega) (by omega) (by omega) fun d hdAB => ?_
    have hdt : d ≠ t := fun heq => htAB (heq ▸ hdAB)
    have hdR : d ∈ A ++ t :: B := by
      rcases List.mem_append.mp hdAB with hd | hd <;> simp [hd]
    rw [hd.realSize d (hin d (hmem d hdR)), if_neg hdt, if_neg (hne d (hmem d hdR))]
  · refine hok.split.insert hnd ?_ ?_ (fun a ha => ?_) fun a ha => ?_
    · rw [hd.splitRight c hcR, if_neg hct, if_pos rfl]
    · rw [hd.splitLeft c hcR, if_neg hright.symm, if_pos rfl]
      exact link_of_ne (hH.ne_zero t (hmem t (by simp)))
    · have ha' := hmem a ha
      simp only [hd.splitRight a (hin a ha'), if_neg (hne a ha')]
      split
      · exact link_of_ne (by omega)
      · rfl
    · have ha' := hmem a ha
      simp only [hd.splitLeft a (hin a ha'), if_neg (hne a ha'), link_eq_some_iff (hH.ne_zero a ha')]
      split
      · exact link_of_ne (by omega)
      · rfl
  · intro a ha
    rcases eq_or_ne a c with rfl | hac
    · rw [hd.magic a hcR, if_pos rfl]
    · have ha' : a ∈ A ++ t :: B := by
        simp only [List.mem_append, List.mem_cons] at ha ⊢
        tauto
      rw [hd.magic a (hin a (hmem a ha')), if_neg hac]
      exact hok.magic a ha'
  · have ha' : a ∈ tags (R₁ ++ ⟨base, len, A ++ t :: B⟩ :: R₂) := mem_tags_middle.mpr (.inl ha)
    have hout := h.not_mem_tags ha
    have hat : a ≠ t := by
      rintro rfl
      exact hout (by simp)
    have har : a ≠ F .splitRight t := by
      rintro heq
      exact hout (heq ▸ hok.right_mem (a := t) (by simp) (heq ▸ hH.ne_zero a ha'))
    rcases hf with rfl | rfl | rfl | rfl
    · rw [hd.realSize a (hin a ha'), if_neg hat, if_neg (hne a ha')]
    · rw [hd.splitLeft a (hin a ha'), if_neg har, if_neg (hne a ha')]
    · rw [hd.splitRight a (hin a ha'), if_neg hat, if_neg (hne a ha')]
    · rw [hd.magic a (hin a ha'), if_neg (hne a ha')]

-- ---------------------------------------------------------------------------
-- The lists
-- ---------------------------------------------------------------------------

theorem Listed.next_split (h : Listed F heads H L) (hc : c ∈ L i) (h0 : F .next c ≠ 0) :
    ∃ A B, L i = A ++ c :: F .next c :: B :=
  (h.linked i).next_split hc (link_of_ne h0)

theorem Listed.prev_split (h : Listed F heads H L) (hc : c ∈ L i) (h0 : F .prev c ≠ 0) :
    ∃ A B, L i = A ++ F .prev c :: c :: B :=
  (h.linked i).prev_split hc (link_of_ne h0)

theorem Listed.next_mem (h : Listed F heads H L) (hc : c ∈ L i) (h0 : F .next c ≠ 0) :
    F .next c ∈ L i ∧ F .next c ≠ c := by
  obtain ⟨A, B, heq⟩ := h.next_split hc h0
  have hnd := h.nodup i
  rw [heq] at hnd
  refine ⟨heq ▸ by simp, fun hself => ?_⟩
  rw [hself] at hnd
  simp [List.nodup_append] at hnd

theorem Listed.prev_mem (h : Listed F heads H L) (hc : c ∈ L i) (h0 : F .prev c ≠ 0) :
    F .prev c ∈ L i ∧ F .prev c ≠ c := by
  obtain ⟨A, B, heq⟩ := h.prev_split hc h0
  have hnd := h.nodup i
  rw [heq] at hnd
  refine ⟨heq ▸ by simp, fun hself => ?_⟩
  rw [hself] at hnd
  simp [List.nodup_append] at hnd

theorem Listed.unique {j : Nat} (h : Listed F heads H L) (ha : a ∈ L i) (ha' : a ∈ L j) : i = j :=
  ((h.mem i a).mp ha).2.1.symm.trans ((h.mem j a).mp ha').2.1

/-- Tags in no list may come and go. -/
theorem Listed.transfer (h : Listed F heads H L) (hin : ∀ i, ∀ a ∈ L i, a ∈ H')
    (hnew : ∀ a ∈ H', a ∈ H ∨ F' .index a = noIndex ∧ F' .next a = 0 ∧ F' .prev a = 0)
    (hindex : ∀ a ∈ H', a ∈ H → F' .index a = F .index a)
    (hnext : ∀ a ∈ H', a ∈ H → F' .next a = F .next a)
    (hprev : ∀ a ∈ H', a ∈ H → F' .prev a = F .prev a) : Listed F' heads H' L where
  mem i a := by
    rw [h.mem]
    constructor
    · rintro ⟨ha, hidx, hi⟩
      have ha' := hin i a ((h.mem i a).mpr ⟨ha, hidx, hi⟩)
      exact ⟨ha', (hindex a ha' ha).trans hidx, hi⟩
    · rintro ⟨ha', hidx, hi⟩
      rcases hnew a ha' with ha | ⟨hno, -⟩
      · exact ⟨ha, (hindex a ha' ha).symm.trans hidx, hi⟩
      · exact absurd (hidx.symm.trans hno) hi
  linked i := (h.linked i).congr (fun a ha => by rw [hnext a (hin i a ha) ((h.mem i a).mp ha).1])
    fun a ha => by rw [hprev a (hin i a ha) ((h.mem i a).mp ha).1]
  nodup := h.nodup
  head := h.head
  idle a ha' hidx := by
    rcases hnew a ha' with ha | ⟨-, hidle⟩
    · rw [hnext a ha' ha, hprev a ha' ha]
      exact h.idle a ha ((hindex a ha' ha).symm.trans hidx)
    · exact hidle
  lt := h.lt

theorem Listed.unlinked (h : Listed F heads H L) (hne : ∀ a ∈ H, a ≠ 0) (hu : Unlinked F F' H c)
    (hc : c ∈ L i) :
    Listed F' (if heads i = c then Function.update heads i (F .next c) else heads) H
      (Function.update L i ((L i).erase c)) := by
  obtain ⟨hcH, hci, hi⟩ := (h.mem i c).mp hc
  have hc0 : c ≠ 0 := hne c hcH
  have hnd := h.nodup i
  have hlinked := h.linked i
  have hhead := h.head i
  have herase : ∀ a, a ∈ (L i).erase c ↔ a ∈ L i ∧ a ≠ c := fun a => by
    rw [hnd.mem_erase_iff, and_comm]
  have hnext0 : ∀ j, ∀ a ∈ L j, a = F .next c → j = i := fun j a ha heq => by
    have h0 : F .next c ≠ 0 := heq ▸ hne a ((h.mem j a).mp ha).1
    exact h.unique ha (heq ▸ (h.next_mem hc h0).1)
  have hprev0 : ∀ j, ∀ a ∈ L j, a = F .prev c → j = i := fun j a ha heq => by
    have h0 : F .prev c ≠ 0 := heq ▸ hne a ((h.mem j a).mp ha).1
    exact h.unique ha (heq ▸ (h.prev_mem hc h0).1)
  refine ⟨fun j a => ?_, fun j => ?_, fun j => ?_, fun j => ?_, fun a ha hidx => ?_, fun j a ha => ?_⟩
  · rcases eq_or_ne j i with rfl | hji
    · rw [Function.update_self, herase, h.mem]
      constructor
      · rintro ⟨⟨ha, hidx, hj⟩, hac⟩
        exact ⟨ha, by rw [hu.index a ha, if_neg hac, hidx], hj⟩
      · rintro ⟨ha, hidx, hj⟩
        rw [hu.index a ha] at hidx
        split at hidx
        · exact absurd hidx.symm hj
        · exact ⟨⟨ha, hidx, hj⟩, ‹_›⟩
    · rw [Function.update_of_ne hji, h.mem]
      refine and_congr_right fun ha => and_congr_left fun hj => ?_
      rw [hu.index a ha]
      split
      · rename_i hac
        subst hac
        exact ⟨fun hidx => absurd (hidx.symm.trans hci) hji, fun hidx => absurd hidx.symm hj⟩
      · rfl
  · rcases eq_or_ne j i with rfl | hji
    · obtain ⟨A, B, hAB⟩ := List.append_of_mem hc
      have hcA : c ∉ A := by
        rw [hAB] at hnd
        exact fun hmem => List.disjoint_of_nodup_append hnd hmem List.mem_cons_self
      have heq : (L j).erase c = A ++ B := by
        rw [hAB, List.erase_append_right _ hcA, List.erase_cons_head]
      rw [Function.update_self, heq]
      have hmem : ∀ a ∈ A ++ B, a ∈ H ∧ a ≠ c := fun a ha => by
        rw [← heq, herase] at ha
        exact ⟨((h.mem j a).mp ha.1).1, ha.2⟩
      rw [hAB] at hlinked hnd
      refine hlinked.erase hnd (fun a ha => ?_) fun a ha => ?_
      · obtain ⟨haH, hac⟩ := hmem a ha
        simp only [hu.next a haH, if_neg hac, link_eq_some_iff (hne a haH)]
        split <;> rfl
      · obtain ⟨haH, hac⟩ := hmem a ha
        simp only [hu.prev a haH, if_neg hac, link_eq_some_iff (hne a haH)]
        split <;> rfl
    · rw [Function.update_of_ne hji]
      refine (h.linked j).congr (fun a ha => ?_) fun a ha => ?_
      · have hac : a ≠ c := fun heq => hji (h.unique (heq ▸ ha) hc)
        rw [hu.next a ((h.mem j a).mp ha).1, if_neg hac, if_neg fun heq => hji (hprev0 j a ha heq)]
      · have hac : a ≠ c := fun heq => hji (h.unique (heq ▸ ha) hc)
        rw [hu.prev a ((h.mem j a).mp ha).1, if_neg hac, if_neg fun heq => hji (hnext0 j a ha heq)]
  · rcases eq_or_ne j i with rfl | hji
    · rw [Function.update_self]
      exact hnd.erase c
    · rw [Function.update_of_ne hji]
      exact h.nodup j
  · rcases eq_or_ne j i with rfl | hji
    · rw [Function.update_self]
      obtain ⟨A, B, hAB⟩ := List.append_of_mem hc
      have hfirst : link (F .next c) = B.head? := (hlinked A c B hAB).1
      cases A with
      | nil =>
        rw [hAB] at hhead
        have hheadc : heads j = c := (link_eq_some.mp hhead).1
        rw [if_pos hheadc, Function.update_self, hfirst, hAB, List.nil_append, List.erase_cons_head]
      | cons d A =>
        have hdc : d ≠ c := by
          rintro rfl
          rw [hAB] at hnd
          simp at hnd
        rw [hAB] at hhead
        have hheadd : heads j = d := (link_eq_some.mp hhead).1
        rw [if_neg fun heq => hdc (hheadd.symm.trans heq), hhead, hAB, List.cons_append,
          List.erase_cons_tail (by simpa using hdc)]
        rfl
    · rw [Function.update_of_ne hji, ← h.head j]
      split
      · rw [Function.update_of_ne hji]
      · rfl
  · rw [hu.next a ha, hu.prev a ha]
    rcases eq_or_ne a c with rfl | hac
    · rw [if_pos rfl, if_pos rfl]
      exact ⟨rfl, rfl⟩
    · have hidx' : F .index a = noIndex := by rwa [hu.index a ha, if_neg hac] at hidx
      have hout : a ∉ L i := fun hmem => hi (((h.mem i a).mp hmem).2.1.symm.trans hidx')
      have hnext : a ≠ F .next c := by
        rintro rfl
        exact hout (h.next_mem hc (hne _ ha)).1
      have hprev : a ≠ F .prev c := by
        rintro rfl
        exact hout (h.prev_mem hc (hne _ ha)).1
      rw [if_neg hac, if_neg hac, if_neg hprev, if_neg hnext]
      exact h.idle a ha hidx'
  · rcases eq_or_ne j i with rfl | hji
    · exact h.lt j c hc
    · rw [Function.update_of_ne hji] at ha
      exact h.lt j a ha

theorem Listed.pushed (h : Listed F heads H L) (hne : ∀ a ∈ H', a ≠ 0)
    (hp : Pushed F F' H' c i (heads i)) (hsub : H ⊆ H')
    (hmem : ∀ a ∈ H', a ≠ c → a ∈ H) (hc : c ∈ H') (hnew : ∀ j, c ∉ L j) (hnext : F .next c = 0)
    (hprev : F .prev c = 0)
    (hi : i < maxExp) :
    Listed F' (Function.update heads i c) H' (Function.update L i (c :: L i)) := by
  have hi0 : i ≠ noIndex := fun heq => absurd hi (heq ▸ by decide)
  have hc0 : c ≠ 0 := hne c hc
  have hcmem : ∀ j, ∀ a ∈ L j, a ∈ H' ∧ a ≠ c := fun j a ha =>
    ⟨hsub ((h.mem j a).mp ha).1, fun heq => hnew j (heq ▸ ha)⟩
  have hhead : ∀ j, ∀ a ∈ L j, a = heads i → j = i := fun j a ha heq => by
    have hfirst := h.head i
    rw [← heq, link_of_ne (hne a (hcmem j a ha).1)] at hfirst
    exact h.unique ha (List.mem_of_head? hfirst.symm)
  refine ⟨fun j a => ?_, fun j => ?_, fun j => ?_, fun j => ?_, fun a ha hidx => ?_, fun j a ha => ?_⟩
  · rcases eq_or_ne a c with rfl | hac
    · have hidx : F' .index a = i := by rw [hp.index a hc, if_pos rfl]
      rw [hidx]
      rcases eq_or_ne j i with rfl | hji
      · rw [Function.update_self]
        exact iff_of_true List.mem_cons_self ⟨hc, rfl, hi0⟩
      · rw [Function.update_of_ne hji]
        exact iff_of_false (hnew j) fun h => hji h.2.1.symm
    · have hiff : a ∈ Function.update L i (c :: L i) j ↔ a ∈ L j := by
        rcases eq_or_ne j i with rfl | hji
        · rw [Function.update_self, List.mem_cons, or_iff_right hac]
        · rw [Function.update_of_ne hji]
      rw [hiff, h.mem]
      constructor
      · rintro ⟨ha, hidx, hj⟩
        exact ⟨hsub ha, by rw [hp.index a (hsub ha), if_neg hac, hidx], hj⟩
      · rintro ⟨ha, hidx, hj⟩
        rw [hp.index a ha, if_neg hac] at hidx
        exact ⟨hmem a ha hac, hidx, hj⟩
  · rcases eq_or_ne j i with rfl | hji
    · rw [Function.update_self]
      refine (h.linked j).cons (h.nodup j) ?_ ?_ (fun a ha => ?_) fun a ha => ?_
      · rw [hp.next c hc, ← h.head j]
        split
        · rfl
        · rename_i hzero
          have h0 : heads j = 0 := by simpa using hzero
          rw [hnext, h0]
      · rw [hp.prev c hc]
        split
        · rename_i heq
          exact absurd (List.mem_of_head? ((h.head j).symm.trans (heq ▸ link_of_ne hc0))) (hnew j)
        · rw [hprev]
          rfl
      · rw [hp.next a (hcmem j a ha).1, if_neg fun heq => (hcmem j a ha).2 heq.1]
      · rw [hp.prev a (hcmem j a ha).1, ← h.head j]
        simp only [link_eq_some_iff (hne a (hcmem j a ha).1)]
        split
        · exact link_of_ne hc0
        · rfl
    · rw [Function.update_of_ne hji]
      refine (h.linked j).congr (fun a ha => ?_) fun a ha => ?_
      · rw [hp.next a (hcmem j a ha).1, if_neg fun heq => (hcmem j a ha).2 heq.1]
      · rw [hp.prev a (hcmem j a ha).1, if_neg fun heq => hji (hhead j a ha heq)]
  · rcases eq_or_ne j i with rfl | hji
    · rw [Function.update_self]
      exact List.nodup_cons.mpr ⟨hnew j, h.nodup j⟩
    · rw [Function.update_of_ne hji]
      exact h.nodup j
  · rcases eq_or_ne j i with rfl | hji
    · rw [Function.update_self, Function.update_self, link_of_ne hc0]
      rfl
    · rw [Function.update_of_ne hji, Function.update_of_ne hji]
      exact h.head j
  · have hac : a ≠ c := by
      rintro rfl
      rw [hp.index a ha, if_pos rfl] at hidx
      exact hi0 hidx
    rw [hp.index a ha, if_neg hac] at hidx
    obtain ⟨hn, hp'⟩ := h.idle a (hmem a ha hac) hidx
    have hfirst : a ≠ heads i := fun heq => by
      have hlist := h.head i
      rw [← heq, link_of_ne (hne a ha)] at hlist
      exact hi0 (((h.mem i a).mp (List.mem_of_head? hlist.symm)).2.1.symm.trans hidx)
    rw [hp.next a ha, if_neg fun heq => hac heq.1, hp.prev a ha, if_neg hfirst]
    exact ⟨hn, hp'⟩
  · rcases eq_or_ne j i with rfl | hji
    · exact hi
    · rw [Function.update_of_ne hji] at ha
      exact h.lt j a ha

end

end Heap

end LimineOS
