import LimineOS.Mm.HeapSpace

/-!
# What the heap does not check

A tag keeps its magic number when its block is freed, so freeing it again puts it
behind itself in its list. And the size of a request wraps when the size of the tag
is added to it.
-/

namespace LimineOS

open ByteMemory Fueled Tiling VirtualMemory

open BoundaryTag (sizeof noIndex)

namespace Heap

section
variable {own : Set Nat} {s s' : Heap} {R : List Region} {L : Nat → List Nat} {H : Set Nat}
  {a c i t size : Nat}
  {pmm : PhysicalMemory}

-- ---------------------------------------------------------------------------
-- Freeing twice
-- ---------------------------------------------------------------------------

/-- No merging: both neighbours are used, or there are none. -/
structure Between (s : Heap) (t : Nat) : Prop where
  left : ¬s.IsFree (s.get .splitLeft t)
  right : ¬s.IsFree (s.get .splitRight t)
  not_whole : ¬s.Whole t

theorem meltStep_inr (h : ¬s.IsFree (s.get .splitLeft t)) : meltStep (t, s) = .inr (t, s) := by
  rw [meltStep, if_neg h]

theorem absorbStep_inr (h : ¬s.IsFree (s.get .splitRight t)) : absorbStep (t, s) = .inr (t, s) := by
  rw [absorbStep, if_neg h]

theorem Between.free_ends (h : s.Between t) (hmagic : s.get .magic t = liballocMagic)
    (ht : subU64 (t + sizeof) sizeof = t) :
    Ends (s.free (t + sizeof)) fun s' => s' = s.insertTag t (s.exponentAt t) := by
  have hne : t + sizeof ≠ 0 := Nat.ne_of_gt (Nat.add_pos_right t (by decide))
  rw [Heap.free, ht, if_neg hne, if_neg (not_not_intro hmagic)]
  refine Ends.bind (P := fun r => r = (t, s)) (ends_iterate_inr (meltStep_inr h.left) rfl) ?_
  rintro _ rfl
  refine Ends.bind (P := fun r => r = (t, s)) (ends_iterate_inr (absorbStep_inr h.right) rfl) ?_
  rintro _ rfl
  refine ends_pure ?_
  rw [giveBack, if_neg h.not_whole]

theorem Pushed.between (hp : Pushed s.get s'.get H t i c) (h : s.Between t) (ht : t ∈ H)
    (hleft : s.get .splitLeft t ≠ 0 → s.get .splitLeft t ∈ H ∧ s.get .splitLeft t ≠ t)
    (hright : s.get .splitRight t ≠ 0 → s.get .splitRight t ∈ H ∧ s.get .splitRight t ≠ t) :
    s'.Between t := by
  have hl := hp.rest .splitLeft (by decide) (by decide) (by decide) t ht
  have hr := hp.rest .splitRight (by decide) (by decide) (by decide) t ht
  have hfree : ∀ b, (b ≠ 0 → b ∈ H ∧ b ≠ t) → ¬s.IsFree b → ¬s'.IsFree b := fun b hb hnot hfree => by
    obtain ⟨hbH, hbt⟩ := hb hfree.1
    refine hnot ⟨hfree.1, ?_⟩
    have hlt := hfree.2
    rwa [hp.index b hbH, if_neg hbt] at hlt
  refine ⟨?_, ?_, ?_⟩
  · rw [hl]
    exact hfree _ hleft h.left
  · rw [hr]
    exact hfree _ hright h.right
  · rw [Whole, hl, hr]
    exact h.not_whole

/-- A list that leads back to its head without a fit is searched forever. -/
theorem malloc_never (hinit : s.initialized = true) (hhead : s.freePages (exponent (u32 size)) = t)
    (hnext : s.get .next t = t)
    (h0 : t ≠ 0) (hfit : ¬s.Fits size t) : Safe (s.malloc size) fun _ => False := by
  have hsetUp : s.setUp = s := if_pos hinit
  rw [Heap.malloc, hsetUp]
  refine Safe.bind (P := fun _ => False) ?_ fun _ hfalse => hfalse.elim
  rw [hhead]
  refine safe_iterate (I := fun tag => tag = t) (fun tag htag => ?_) rfl
  subst htag
  have hstep : s.searchStep size tag = .inl tag := by
    rw [searchStep, if_neg h0, hnext]
    exact if_neg hfit
  rw [hstep]
  exact rfl

/-- After a block has been freed twice, a request of its class that it is too small for hangs. -/
theorem Wf.free_twice_hangs (h : Wf own s R L) (ht : t ∈ Used s R) (hb : s.Between t) :
    Ends (do
      let s ← s.free (t + sizeof)
      s.free (t + sizeof)) fun s' =>
        ∀ size, exponent (u32 size) = s.exponentAt t → ¬s.Fits size t →
        Safe (s'.malloc size) fun _ => False := by
  have hH := h.spaced
  have hsub := h.subU64_sizeof ht.1
  have hinit := (h.inHand ht).initialized
  obtain ⟨r, hr, htr⟩ := ht.1
  have hok := h.tiled.ok r hr
  have hside : ∀ b ∈ r.tags, b ≠ t → b ∈ tags R ∧ b ≠ t := fun b hb hne => ⟨⟨r, hr, hb⟩, hne⟩
  have hleft : s.get .splitLeft t ≠ 0 → s.get .splitLeft t ∈ tags R ∧ s.get .splitLeft t ≠ t :=
    fun h0 => by
    refine hside _ (hok.left_mem htr h0) fun heq => ?_
    obtain ⟨A, B, hAB⟩ := hok.left_split htr h0
    have hnd := hok.nodup
    rw [hAB, heq] at hnd
    simp [List.nodup_append] at hnd
  have hright : s.get .splitRight t ≠ 0 → s.get .splitRight t ∈ tags R ∧ s.get .splitRight t ≠ t :=
    fun h0 => by
    refine hside _ (hok.right_mem htr h0) fun heq => ?_
    obtain ⟨A, B, hAB⟩ := hok.right_split htr h0
    have hnd := hok.nodup
    rw [hAB, heq] at hnd
    simp [List.nodup_append] at hnd
  have hlt : s.exponentAt t < 2 ^ 32 := (exponent_lt _).trans (by decide)
  have hneg : ¬((s.exponentAt t : Int) < 0) := by omega
  have hindex : ∀ u : Heap,
      (if (s.exponentAt t : Int) < 0 then u.exponentAt t else (s.exponentAt t : Int).toNat) =
      s.exponentAt t := fun u => (if_neg hneg).trans (Int.toNat_natCast _)
  have hhead : s.freePages (s.exponentAt t) ≠ 0 → s.freePages (s.exponentAt t) ∈ tags R := fun h0 => by
    have hfirst := h.listed.head (s.exponentAt t)
    rw [link_of_ne h0] at hfirst
    exact ((h.listed.mem _ _).mp (List.mem_of_head? hfirst.symm)).1
  generalize hi : s.exponentAt t = i at hlt hneg hindex hhead ⊢
  obtain ⟨hp, -, hheads, -, hinit'⟩ := insertTag_pushed hH ht.1 (hindex s) hlt hhead
  have hmagic := h.magic ht.1
  refine Ends.bind (hb.free_ends hmagic hsub) ?_
  rintro _ rfl
  rw [hi]
  have hb' := hp.between hb ht.1 hleft hright
  have hmagic' := (hp.rest .magic (by decide) (by decide) (by decide) t ht.1).trans hmagic
  have hi' : (s.insertTag t i).exponentAt t = i := by
    rw [exponentAt, hp.rest .realSize (by decide) (by decide) (by decide) t ht.1]
    exact hi
  generalize s.insertTag t i = u at hp hheads hinit' hb' hmagic' hi' ⊢
  have hhead' : u.freePages i = t := by rw [hheads, Function.update_self]
  obtain ⟨hp', -, hheads', -, hinit''⟩ :=
    insertTag_pushed (s := u) hH ht.1 (hindex u) hlt fun _ => hhead'.symm ▸ ht.1
  refine (hb'.free_ends hmagic' hsub).mono ?_
  rintro _ rfl
  rw [hi']
  generalize u.insertTag t i = w at hp' hheads' hinit'' ⊢
  have h0 := hH.ne_zero t ht.1
  intro size hclass hfit
  refine malloc_never ((hinit''.trans hinit').trans hinit) ?_ ?_ h0 ?_
  · rw [hclass, hheads', Function.update_self]
  · rw [hp'.next t ht.1, if_pos ⟨rfl, hhead'.symm ▸ h0⟩, hhead']
  · rwa [Fits, hp'.rest .realSize (by decide) (by decide) (by decide) t ht.1,
      hp.rest .realSize (by decide) (by decide) (by decide) t ht.1]

theorem Shaped.between {base len : Nat} {B : List Nat} (h : Shaped own s [⟨base, len, t :: c :: B⟩] L)
    (hc : s.get .index c = noIndex) : s.Between t := by
  have hok := h.tiled.ok _ (List.mem_singleton_self _)
  have hright : link (s.get .splitRight t) = some c := (hok.split [] t (c :: B) rfl).1
  have hleft : link (s.get .splitLeft t) = none := (hok.split [] t (c :: B) rfl).2
  obtain ⟨hright, hc0⟩ := link_eq_some.mp hright
  refine ⟨fun hfree => hfree.1 (link_eq_none.mp hleft), fun hfree => ?_, fun hwhole => ?_⟩
  · have hlt := hfree.2
    rw [hright, hc] at hlt
    exact absurd hlt (by decide)
  · exact hc0 (hright.symm.trans hwhole.2)

theorem lowHeap_sane : PhysicalMemory.Sane lowOwn lowHeap.pmm :=
  lowMemory_fits.sane lowMemory_ok (by decide)

theorem lowHeap_alloc : ∃ t pmm, lowHeap.pmm.alloc 16 = some (t, pmm) := by
  refine lowHeap_sane.alloc_isSome_of_card lowHeap_zero_held.not_free (by decide) ?_
  rw [lowHeap_freePages, lowHeap_limit, Nat.card_Ico]
  decide

theorem exists_between : ∃ s R L t, Wf lowOwn s R L ∧ t ∈ Used s R ∧ s.Between t := by
  obtain ⟨t, pmm, halloc⟩ := lowHeap_alloc
  have hs := (boots_empty.keeps lowHeap_sane).wf.setUp
  have hnew : lowHeap.setUp.allocateNewTag 100 =
      some (t, stamp { lowHeap.setUp with pmm } t 100 16) := by
    have hpages : pagesFor (u32 (100 + sizeof)) = 16 := by decide
    rw [allocateNewTag, hpages, setUp_pmm]
    exact congrArg (Option.map _) halloc
  have hfr := hs.toShaped.allocateNewTag (by decide) hnew
  have hbal := hfr.balanced hs.toShaped hs.balanced
  generalize stamp { lowHeap.setUp with pmm } t 100 16 = s₁ at hnew hfr hbal
  have hshaped : Shaped lowOwn s₁ ([] ++ ⟨t, 4096 * pagesFor (100 + sizeof), [] ++ t :: []⟩ :: [])
      fun _ => [] := hfr.shaped
  have ht : t ∈ Used s₁ ([] ++ ⟨t, 4096 * pagesFor (100 + sizeof), [] ++ t :: []⟩ :: []) :=
    hfr.used ▸ Set.mem_insert t _
  have hreal : 100 + 2 * sizeof ≤ s₁.get .realSize t := by
    rw [hfr.realSize]
    decide
  -- the first block takes what it needs, and the second one the rest
  obtain ⟨hset, hget, -⟩ := hshaped.setSize ht.1 (by decide : 100 < 2 ^ 32)
  have hother : ∀ f, f ≠ .size →
      ∀ a ∈ tags ([] ++ ⟨t, 4096 * pagesFor (100 + sizeof), [] ++ t :: []⟩ :: []),
      (s₁.set .size t 100).get f a = s₁.get f a :=
        fun f hf a ha => by rw [hget f a ha, if_neg fun hh => hf hh.1]
  have hbal' := hbal.congr hshaped hother rfl
  have ht' : t ∈ Used (s₁.set .size t 100)
      ([] ++ ⟨t, 4096 * pagesFor (100 + sizeof), [] ++ t :: []⟩ :: []) :=
    ⟨ht.1, (hother .index (by decide) t ht.1).trans ht.2⟩
  have hsize : (s₁.set .size t 100).get .size t = 100 := (hget .size t ht.1).trans (if_pos ⟨rfl, rfl⟩)
  have hreal' := hother .realSize (by decide) t ht.1
  have hinit : (s₁.set .size t 100).initialized = true := hfr.initialized.trans setUp_initialized
  generalize s₁.set .size t 100 = s₂ at hset hbal' ht' hsize hreal' hinit
  have hso := hset.splitTag ht' (by rw [hsize, hreal']; exact hreal)
  have hbal'' := hso.balanced hset hbal' ht' (by simp)
  generalize (s₂.splitTag t).2 = s₃ at hso hbal''
  generalize t + sizeof + s₂.get .size t = c at hso hbal''
  generalize exponent (s₂.get .realSize t - sizeof - s₂.get .size t - sizeof) = i at hso hbal''
  have hcl := hso.shaped.claim hbal'' (c := c) (i := i)
    (by rw [Function.update_self]; exact List.mem_cons_self)
  have hused : c ∈ Used (s₃.claim c i)
      ([] ++ ⟨t, 4096 * pagesFor (100 + sizeof), [] ++ t :: c :: []⟩ :: []) :=
    hcl.used ▸ Set.mem_insert c _
  have hinit' := (hcl.initialized.trans hso.initialized).trans hinit
  refine ⟨s₃.claim c i, _, _, t,
    ⟨hcl.shaped, hcl.balanced, fun hno => absurd (hno.symm.trans hinit') (by decide)⟩, ?_,
    hcl.shaped.between hused.2⟩
  rw [hcl.used, hso.used]
  exact Set.mem_insert_of_mem c ht'

theorem free_twice_hangs_lowMemory : ∃ (s : Heap) (t : Nat), Ends (do
    let s ← s.free (t + sizeof)
    s.free (t + sizeof)) fun s' =>
      ∀ size, exponent (u32 size) = s.exponentAt t → ¬s.Fits size t →
      Safe (s'.malloc size) fun _ => False := by
  obtain ⟨s, R, L, t, h, ht, hb⟩ := exists_between
  exact ⟨s, t, h.free_twice_hangs ht hb⟩

-- ---------------------------------------------------------------------------
-- Requests of almost 4 GiB
-- ---------------------------------------------------------------------------

theorem exponent_eq {x k : Nat} (hle : 2 ^ k ≤ x) (hlt : x < 2 ^ (k + 1)) (hk : minExp ≤ k)
    (hmax : k < maxExp) :
    exponent x = k := by
  rw [exponent, getexp_eq hle hlt hk hmax, if_neg (by omega), Int.toNat_natCast]

/-- The size and the tag together wrap, so that the block gets sixteen pages, and what is left
of these is taken to start behind the size asked for. -/
theorem trim_wraps {size : Nat} (hH : Spaced H) (ht : t ∈ H) (hc : t + sizeof + size ∈ H)
    (hlow : 2 ^ 32 - sizeof ≤ size)
    (hhigh : size < 2 ^ 32) (hreal : s.get .realSize t = 65536) (hright : s.get .splitRight t = 0)
    (hhead : s.freePages 15 ≠ 0 → s.freePages 15 ∈ H) :
    (s.trim t size).freePages 15 = t + sizeof + size ∧
      (s.trim t size).get .realSize (t + sizeof + size) = 65488 + (2 ^ 32 - size) := by
  have hsz : sizeof = 48 := rfl
  have hspace := hH.inSpace _ hc
  have hget : ∀ f, ∀ a ∈ H, (s.set .size t size).get f a =
      if f = .size ∧ a = t then size else s.get f a :=
    fun f a ha => get_set hH ha ht hhigh
  have hrest : u32 (subU64 (subU64 65536 size) (sizeof * 2)) = 65440 + (2 ^ 32 - size) := by
    rw [subU64, subU64, u32]
    omega
  have hrest' : u32 (subU64 (subU64 65536 sizeof) size) = 65488 + (2 ^ 32 - size) := by
    rw [subU64, subU64, u32]
    omega
  have hclass : getexp (65440 + (2 ^ 32 - size)) = (15 : Nat) :=
    getexp_eq (by omega) (by omega) (by decide) (by decide)
  have hcond : 0 < 65440 + (2 ^ 32 - size) ∧ 65440 + (2 ^ 32 - size) < 2 ^ 31 ∧
      0 ≤ getexp (65440 + (2 ^ 32 - size)) := by
    rw [hclass]
    omega
  have hreal' : (s.set .size t size).get .realSize t = 65536 := by
    rw [hget _ t ht, if_neg (by simp), hreal]
  have hsize' : (s.set .size t size).get .size t = size := by rw [hget _ t ht, if_pos ⟨rfl, rfl⟩]
  have hright' : (s.set .size t size).get .splitRight t = 0 := by
    rw [hget _ t ht, if_neg (by simp), hright]
  have heads : (s.set .size t size).freePages = s.freePages := rfl
  have hinit : (s.set .size t size).initialized = s.initialized := rfl
  rw [Heap.trim, hreal', hrest, if_pos hcond, splitTag, hreal', hsize', hrest', u64_of_lt hspace]
  generalize s.set .size t size = u at hreal' hright' heads hinit ⊢
  generalize hcdef : t + sizeof + size = c at hc hspace ⊢
  have hne : t ≠ c := by omega
  have hlen : 65488 + (2 ^ 32 - size) ≤ u.get .realSize t := by omega
  obtain ⟨hd, -, hheads, -, hinit'⟩ := divide_divided hH ht hc hne (fun h0 => absurd hright' h0) hlen
  have hneg : (-1 : Int) < 0 := by decide
  have hexp : (u.divide t c (65488 + (2 ^ 32 - size))).exponentAt c = 15 := by
    rw [exponentAt, hd.realSize c hc, if_neg hne.symm, if_pos rfl,
      subU64_of_le (by omega) (by omega), u32, Nat.mod_eq_of_lt (by omega)]
    exact exponent_eq (by omega) (by omega) (by decide) (by decide)
  obtain ⟨hp, -, hheads', -, hinit''⟩ :=
    insertTag_pushed (s := u.divide t c (65488 + (2 ^ 32 - size))) hH hc
    ((if_pos hneg).trans hexp) (by decide) (by rwa [hheads, heads])
  refine ⟨?_, ?_⟩
  · rw [hheads', Function.update_self]
  · rw [hp.rest .realSize (by decide) (by decide) (by decide) c hc, hd.realSize c hc,
      if_neg hne.symm, if_pos rfl]

theorem Wf.malloc_new (h : Wf own s R L)
    (hnone : ∀ a, s.OnList (exponent (u32 size)) a → ¬s.Fits size a)
    (hnew : s.setUp.allocateNewTag (u32 size) = some (t, s')) :
    Ends (s.malloc size) fun r => r = (t + sizeof, s'.trim t size) := by
  refine Ends.bind h.setUp.search_ends fun tag htag => ?_
  rcases htag with ⟨rfl, -⟩ | ⟨hmem, hfit⟩
  · rw [if_pos rfl]
    refine Ends.bind (ends_ofOption hnew (P := fun r => r = (t, s')) rfl) ?_
    rintro _ rfl
    exact ends_pure rfl
  · rw [Fits, get_setUp] at hfit
    exact absurd hfit (hnone tag (h.onList_iff.mpr hmem))

theorem Wf.allocateNewTag_wraps (h : Wf own s R L) (hlimit : s.pmm.limit ≤ 2 ^ 20)
    (hlow : 2 ^ 32 - sizeof ≤ size)
    (hhigh : size < 2 ^ 32) (halloc : s.pmm.alloc 16 = some (t, pmm)) :
    ∃ s', s.setUp.allocateNewTag size = some (t, s') ∧
      (s'.trim t size).freePages 15 = t + sizeof + size ∧
      (s'.trim t size).get .realSize (t + sizeof + size) = 65488 + (2 ^ 32 - size) := by
  have hsz : sizeof = 48 := rfl
  have hs := h.setUp
  have hpages : pagesFor (u32 (size + sizeof)) = 16 := by
    have hsmall : u32 (size + sizeof) < 48 := by
      rw [u32]
      omega
    obtain ⟨-, hge, hup⟩ := pagesFor_spec (u32 (size + sizeof))
    have hps : pagesFor (u32 (size + sizeof)) * pageSize = 4096 * pagesFor (u32 (size + sizeof)) :=
      Nat.mul_comm ..
    have hpc : pageCount = 16 := rfl
    omega
  have hal := h.sane.alloc (by decide) halloc
  have hold : Disjoint (span t sizeof) (territory R) := Set.disjoint_left.mpr fun x hx hxR =>
    (h.held x hxR).1.not_free (hal.free x (span_subset (le_refl t) (by omega) hx))
  have hout : Disjoint (span (t + sizeof + size) sizeof) (territory R) :=
    Set.disjoint_left.mpr fun x hx hxR => by
    have hlt := (h.held x hxR).1.1
    rw [mem_span] at hx
    omega
  have htlow := (hal.free t ⟨le_refl t, by omega⟩).1
  have hH : Spaced (insert (t + sizeof + size) (insert t (tags R))) := by
    refine insert_spaced
      (insert_spaced h.spaced (PhysicalMemory.alloc_ne_null halloc) (by omega)
        (h.tiled.header_apart hold))
      (by omega) (by omega) ?_
    rintro a (rfl | ha)
    · omega
    · exact h.tiled.header_apart hout a ha
  have hnew : s.setUp.allocateNewTag size = some (t, stamp { s.setUp with pmm } t size 16) := by
    rw [allocateNewTag, hpages, setUp_pmm, halloc]
    rfl
  have hhead : s.setUp.freePages 15 ≠ 0 →
      s.setUp.freePages 15 ∈ insert (t + sizeof + size) (insert t (tags R)) := fun h0 => by
    have hfirst := hs.listed.head 15
    rw [link_of_ne h0] at hfirst
    exact .inr (.inr ((hs.listed.mem _ _).mp (List.mem_of_head? hfirst.symm)).1)
  obtain ⟨hst, -, hheads, -, hinit⟩ :=
    stamp_stamped (s := { s.setUp with pmm }) hH (.inr (.inl rfl)) hhigh
    (by decide : 16 * pageSize < 2 ^ 32)
  obtain ⟨hfirst, hreal⟩ :=
    trim_wraps hH (.inr (.inl rfl)) (.inl rfl) hlow hhigh hst.realSize hst.splitRight
    (by rwa [hheads])
  exact ⟨_, hnew, hfirst, hreal⟩

/-- Where no free block fits such a request, it is met with sixteen pages, and the
tag of what is left of these is written above 4 GiB. The direct map does not get
there. -/
theorem Wf.malloc_wraps (h : Wf own s R L) (hlimit : s.pmm.limit ≤ 2 ^ 20)
    (hlow : 2 ^ 32 - sizeof ≤ size)
    (hhigh : size < 2 ^ 32) (hnone : ∀ a, s.OnList (exponent size) a → ¬s.Fits size a)
    (halloc : s.pmm.alloc 16 = some (t, pmm)) :
    Ends (s.malloc size) (fun r => r.1 = t + sizeof ∧ r.2.freePages 15 = t + sizeof + size ∧
      r.2.get .realSize (t + sizeof + size) = 65488 + (2 ^ 32 - size)) ∧
    ∀ x ∈ span (t + sizeof + size) sizeof, ¬s.pmm.Held x ∧ ¬s.pmm.Free x ∧
      ∀ boot mmap own' dir used, Space own' dir used s.pmm →
      (∀ v, leaf s.pmm.ram dir v = kernelEntry boot mmap v) →
        ¬(framebufferWindow boot mmap).Covers (boot.hhdmOffset + BitVec.ofNat 64 x) →
        ¬(kernelWindow boot).Covers (boot.hhdmOffset + BitVec.ofNat 64 x) →
        ¬Reaches s.pmm.ram dir boot.hhdmOffset x := by
  have hsz : sizeof = 48 := rfl
  have hu32 : u32 size = size := Nat.mod_eq_of_lt hhigh
  obtain ⟨s', hnew, hfirst, hreal⟩ := h.allocateNewTag_wraps hlimit hlow hhigh halloc
  constructor
  · have hnew' : s.setUp.allocateNewTag (u32 size) = some (t, s') :=
      (congrArg s.setUp.allocateNewTag hu32).trans hnew
    refine (h.malloc_new (by rwa [hu32]) hnew').mono fun r hr => ?_
    have hheap : r.2 = s'.trim t size := by rw [hr]
    rw [hheap]
    exact ⟨by rw [hr], hfirst, hreal⟩
  · intro x hx
    rw [mem_span] at hx
    refine ⟨fun hheld => ?_, fun hfree => ?_,
      fun boot mmap own' dir used hspace hleaf hfb hkernel hreaches => ?_⟩
    · have hlt := hheld.1
      omega
    · have hlt := hfree.1
      omega
    · have hdirect := (reaches_iff hspace hleaf).mp hreaches
      by_cases hcov : (directWindow boot).Covers (boot.hhdmOffset + BitVec.ofNat 64 x)
      · have hlt := (hdirect.direct hfb hcov).2
        omega
      · exact not_onto hkernel (hdirect.kernel hfb hcov)

theorem malloc_wraps_lowMemory : ∃ t,
    Ends (lowHeap.malloc (2 ^ 32 - 48))
      (fun r => r.1 = t + sizeof ∧ r.2.freePages 15 = t + sizeof + (2 ^ 32 - 48) ∧
      r.2.get .realSize (t + sizeof + (2 ^ 32 - 48)) = 65488 + (2 ^ 32 - (2 ^ 32 - 48))) ∧
    ∀ x ∈ span (t + sizeof + (2 ^ 32 - 48)) sizeof, ¬lowHeap.pmm.Held x ∧ ¬lowHeap.pmm.Free x ∧
      ∀ boot mmap own' dir used, Space own' dir used lowHeap.pmm →
        (∀ v, leaf lowHeap.pmm.ram dir v = kernelEntry boot mmap v) →
        ¬(framebufferWindow boot mmap).Covers (boot.hhdmOffset + BitVec.ofNat 64 x) →
        ¬(kernelWindow boot).Covers (boot.hhdmOffset + BitVec.ofNat 64 x) →
        ¬Reaches lowHeap.pmm.ram dir boot.hhdmOffset x := by
  obtain ⟨t, pmm, halloc⟩ := lowHeap_alloc
  have hwf := (boots_empty.keeps lowHeap_sane).wf
  refine ⟨t, hwf.malloc_wraps ?_ (by decide) (by decide) (fun a ha => ?_) halloc⟩
  · rw [lowHeap_limit]
    decide
  · exact absurd (hwf.onList_iff.mp ha) List.not_mem_nil

end

end Heap

end LimineOS
