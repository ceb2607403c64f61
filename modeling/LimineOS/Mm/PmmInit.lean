import LimineOS.Mm.Pmm
import Mathlib.Algebra.BigOperators.Group.List.Basic
import Mathlib.Algebra.Ring.Nat
import Mathlib.Data.List.Pairwise
import Mathlib.Tactic.IntervalCases

/-!
# The bitmap after initialization

`initializeWith_spec`: once the three loops have run, the bit of a page is
clear exactly when the page is usable and was not given to the bitmap. The
size of the bitmap is a parameter here; all that matters is that it is a
whole number of pages and that some usable entry can hold it.
-/

namespace LimineOS

open ByteMemory

def LimineMemmapEntry.Covers (e : LimineMemmapEntry) (page : Nat) : Prop :=
  e.type = limineMemmapUsable ∧ e.base ≤ 4096 * page ∧ 4096 * page < e.base + e.length

instance (e : LimineMemmapEntry) (page : Nat) : Decidable (e.Covers page) := by
  unfold LimineMemmapEntry.Covers
  infer_instance

def UsablePage (mmap : List LimineMemmapEntry) (page : Nat) : Prop := ∃ e ∈ mmap, e.Covers page

/-- What the boot loader promises of its usable entries: whole pages of the
64-bit address space, no page in two of them. -/
structure MapOk (mmap : List LimineMemmapEntry) : Prop where
  aligned : ∀ e ∈ mmap, e.type = limineMemmapUsable → 4096 ∣ e.base ∧ 4096 ∣ e.length
  inSpace : ∀ e ∈ mmap, e.type = limineMemmapUsable → e.base + e.length ≤ 2 ^ 64
  disjoint : mmap.Pairwise fun e f => ∀ page, ¬(e.Covers page ∧ f.Covers page)

theorem mapOk_of_apart {mmap : List LimineMemmapEntry}
    (haligned : ∀ e ∈ mmap, e.type = limineMemmapUsable → 4096 ∣ e.base ∧ 4096 ∣ e.length)
    (hspace : ∀ e ∈ mmap, e.type = limineMemmapUsable → e.base + e.length ≤ 2 ^ 64)
    (hapart : mmap.Pairwise fun e f => e.type = limineMemmapUsable → f.type = limineMemmapUsable →
      e.base + e.length ≤ f.base ∨ f.base + f.length ≤ e.base) : MapOk mmap := by
  refine ⟨haligned, hspace, hapart.imp fun hef page => ?_⟩
  rintro ⟨⟨he, h₁, h₂⟩, hf, h₃, h₄⟩
  have hside := hef he hf
  omega

namespace PhysicalMemory

theorem bitmapSize_dvd (h : Nat) : 4096 ∣ bitmapSize h := by
  unfold bitmapSize alignUp u64
  exact (Nat.dvd_mod_iff (by decide)).mpr (Nat.dvd_mul_left _ _)

def BitmapPage (b : Bitmap) (size page : Nat) : Prop :=
  b.buffer ≤ 4096 * page ∧ 4096 * page < b.buffer + size

section
variable {mmap mmap' l r : List LimineMemmapEntry} {e : LimineMemmapEntry} {s : PhysicalMemory}
  {b : Bitmap} {ram : Mem} {size base i : Nat}

-- ---------------------------------------------------------------------------
-- First loop
-- ---------------------------------------------------------------------------

def usableBytes (mmap : List LimineMemmapEntry) : Nat :=
  (mmap.map fun e => if e.type = limineMemmapUsable then e.length else 0).sum

theorem countEntry_eq (s : PhysicalMemory) (e : LimineMemmapEntry) :
    ∃ h, s.countEntry e = { s with highestAddr := h, freeRam := (s.countEntry e).freeRam } ∧
      s.highestAddr ≤ h ∧ (s.highestAddr < 2 ^ 64 → h < 2 ^ 64) ∧
      (e.type = limineMemmapUsable → u64 (e.base + e.length) ≤ h) := by
  unfold countEntry
  split
  · refine ⟨_, rfl, ?_, ?_, fun _ => ?_⟩
    · split <;> omega
    · intro hs
      split
      · exact u64_lt _
      · exact hs
    · split <;> omega
  · exact ⟨s.highestAddr, rfl, le_refl _, id, fun h => absurd h (by assumption)⟩

theorem countEntry_freeRam (hs : s.freeRam = u64 n) :
    (s.countEntry e).freeRam = u64 (n + if e.type = limineMemmapUsable then e.length else 0) := by
  unfold countEntry
  split
  · simp only [hs, u64, Nat.mod_add_mod]
  · simp [hs]

theorem foldl_countEntry (s : PhysicalMemory) (mmap : List LimineMemmapEntry) :
    ∃ h, mmap.foldl countEntry s =
        { s with highestAddr := h, freeRam := (mmap.foldl countEntry s).freeRam } ∧
      s.highestAddr ≤ h ∧ (s.highestAddr < 2 ^ 64 → h < 2 ^ 64) ∧
      ∀ e ∈ mmap, e.type = limineMemmapUsable → u64 (e.base + e.length) ≤ h := by
  induction mmap generalizing s with
  | nil => exact ⟨s.highestAddr, rfl, le_refl _, id, by simp⟩
  | cons e es ih =>
    obtain ⟨h₁, he, hle, hlt, htop⟩ := countEntry_eq s e
    obtain ⟨h₂, hes, hle', hlt', htop'⟩ := ih (s.countEntry e)
    have hfirst : (s.countEntry e).highestAddr = h₁ := by rw [he]
    rw [hfirst] at hle' hlt'
    refine ⟨h₂, ?_, by omega, fun hs => hlt' (hlt hs), ?_⟩
    · rw [List.foldl_cons, hes, he]
    · intro f hf hu
      rcases List.mem_cons.mp hf with rfl | hf
      · exact (htop hu).trans hle'
      · exact htop' f hf hu

theorem foldl_countEntry_freeRam (hs : s.freeRam = u64 n) :
    (mmap.foldl countEntry s).freeRam = u64 (n + usableBytes mmap) := by
  induction mmap generalizing s n with
  | nil => simpa [usableBytes] using hs
  | cons e es ih =>
    rw [List.foldl_cons, ih (countEntry_freeRam hs), usableBytes, usableBytes, List.map_cons,
      List.sum_cons, Nat.add_assoc]

-- ---------------------------------------------------------------------------
-- Second loop
-- ---------------------------------------------------------------------------

def firstFit (size : Nat) (mmap : List LimineMemmapEntry) : Option LimineMemmapEntry :=
  mmap.find? fun e => e.type = limineMemmapUsable ∧ size ≤ e.length

theorem carve_eq (h : carve size mmap = some (base, mmap')) :
    ∃ l e r, mmap = l ++ e :: r ∧ firstFit size mmap = some e ∧ e.type = limineMemmapUsable ∧
      size ≤ e.length ∧ base = e.base ∧ mmap' = l ++
        { e with length := e.length - size, base := u64 (e.base + size) } :: r := by
  induction mmap generalizing mmap' with
  | nil => simp [carve] at h
  | cons e es ih =>
    have hskip : ¬(e.type = limineMemmapUsable ∧ size ≤ e.length) →
        (carve size es).map (fun r => (r.1, e :: r.2)) = some (base, mmap') →
        ∃ l f r, e :: es = l ++ f :: r ∧ firstFit size (e :: es) = some f ∧
        f.type = limineMemmapUsable ∧
          size ≤ f.length ∧ base = f.base ∧
          mmap' = l ++ { f with length := f.length - size, base := u64 (f.base + size) } :: r := by
      intro hfit h
      obtain ⟨⟨base', es'⟩, hes, heq⟩ := Option.map_eq_some_iff.mp h
      simp only [Prod.mk.injEq] at heq
      obtain ⟨rfl, rfl⟩ := heq
      obtain ⟨l, f, r, rfl, hfirst, hu, hf, hb, rfl⟩ := ih hes
      refine ⟨e :: l, f, r, rfl, ?_, hu, hf, hb, rfl⟩
      rw [firstFit, List.find?_cons_of_neg (by simpa using hfit)]
      exact hfirst
    unfold carve at h
    split at h
    · rename_i hu
      exact hskip (fun hfit => hu hfit.1) h
    · rename_i hu
      split at h
      · rename_i hfit
        simp only [Option.some.injEq, Prod.mk.injEq] at h
        obtain ⟨rfl, rfl⟩ := h
        refine ⟨[], e, es, rfl, ?_, not_not.mp hu, hfit, rfl, rfl⟩
        rw [firstFit, List.find?_cons_of_pos (by simpa using ⟨not_not.mp hu, hfit⟩)]
      · rename_i hfit
        exact hskip (fun h => hfit h.2) h

theorem carve_isSome (h : ∃ e ∈ mmap, e.type = limineMemmapUsable ∧ size ≤ e.length) :
    ∃ base mmap', carve size mmap = some (base, mmap') := by
  induction mmap with
  | nil => simp at h
  | cons e es ih =>
    unfold carve
    split
    · rename_i hu
      obtain ⟨f, hf, hfu, hfit⟩ := h
      rcases List.mem_cons.mp hf with rfl | hf
      · exact absurd hfu hu
      · obtain ⟨base, es', hes⟩ := ih ⟨f, hf, hfu, hfit⟩
        exact ⟨base, e :: es', by simp [hes]⟩
    · split
      · exact ⟨_, _, rfl⟩
      · rename_i hsmall
        obtain ⟨f, hf, hfu, hfit⟩ := h
        rcases List.mem_cons.mp hf with rfl | hf
        · exact absurd hfit hsmall
        · obtain ⟨base, es', hes⟩ := ih ⟨f, hf, hfu, hfit⟩
          exact ⟨base, e :: es', by simp [hes]⟩

theorem covers_carved (hspace : e.base + e.length ≤ 2 ^ 64) (hfit : size ≤ e.length) :
    LimineMemmapEntry.Covers { e with length := e.length - size, base := u64 (e.base + size) } i ↔
      e.Covers i ∧ ¬4096 * i < e.base + size := by
  unfold LimineMemmapEntry.Covers
  by_cases hlt : e.base + size < 2 ^ 64
  · simp only [u64_of_lt hlt]
    constructor
    · rintro ⟨hu, h₁, h₂⟩
      exact ⟨⟨hu, by omega, by omega⟩, by omega⟩
    · rintro ⟨⟨hu, h₁, h₂⟩, h₃⟩
      exact ⟨hu, by omega, by omega⟩
  · -- the whole entry is given away, and its base wraps to 0
    have hbase : u64 (e.base + size) = 0 := by
      rw [show e.base + size = 2 ^ 64 by omega]
      rfl
    simp only [hbase]
    constructor
    · rintro ⟨hu, h₁, h₂⟩
      omega
    · rintro ⟨⟨hu, h₁, h₂⟩, h₃⟩
      omega

theorem mapOk_carved (hm : MapOk (l ++ e :: r)) (hu : e.type = limineMemmapUsable)
    (hfit : size ≤ e.length)
    (hdvd : 4096 ∣ size) :
    ∀ f ∈ l ++ { e with length := e.length - size, base := u64 (e.base + size) } :: r,
      f.type = limineMemmapUsable → (4096 ∣ f.base ∧ 4096 ∣ f.length) ∧ f.base + f.length ≤ 2 ^ 64 := by
  intro f hf hfu
  have hspace := hm.inSpace e (by simp) hu
  obtain ⟨⟨eb, heb⟩, ⟨el, hel⟩⟩ := hm.aligned e (by simp) hu
  obtain ⟨sz, hsz⟩ := hdvd
  have hmem : f ∈ l ++ e :: r ∨
      f = { e with length := e.length - size, base := u64 (e.base + size) } := by
    simp only [List.mem_append, List.mem_cons] at hf ⊢
    tauto
  rcases hmem with hf | rfl
  · exact ⟨hm.aligned f hf hfu, hm.inSpace f hf hfu⟩
  · have hle : u64 (e.base + size) ≤ e.base + size := Nat.mod_le _ _
    refine ⟨⟨?_, ⟨el - sz, by simp only; omega⟩⟩, by simp only; omega⟩
    simp only [u64]
    exact (Nat.dvd_mod_iff (by decide)).mpr ⟨eb + sz, by omega⟩

theorem usablePage_carved (hm : MapOk (l ++ e :: r)) (hu : e.type = limineMemmapUsable)
    (hfit : size ≤ e.length) :
    UsablePage (l ++ { e with length := e.length - size, base := u64 (e.base + size) } :: r) i ↔
      UsablePage (l ++ e :: r) i ∧ ¬(e.base ≤ 4096 * i ∧ 4096 * i < e.base + size) := by
  have hspace := hm.inSpace e (by simp) hu
  obtain ⟨_, hpr, hlr⟩ := List.pairwise_append.mp hm.disjoint
  have hother : ∀ f, f ∈ l ∨ f ∈ r → f.Covers i → ¬(e.base ≤ 4096 * i ∧ 4096 * i < e.base + size) := by
    rintro f hf hcov ⟨h₁, h₂⟩
    have he : e.Covers i := ⟨hu, h₁, by omega⟩
    rcases hf with hf | hf
    · exact hlr f hf e (by simp) i ⟨hcov, he⟩
    · exact (List.pairwise_cons.mp hpr).1 f hf i ⟨he, hcov⟩
  constructor
  · rintro ⟨f, hf, hcov⟩
    rcases List.mem_append.mp hf with hf | hf
    · exact ⟨⟨f, by simp [hf], hcov⟩, hother f (.inl hf) hcov⟩
    · rcases List.mem_cons.mp hf with rfl | hf
      · rw [covers_carved hspace hfit] at hcov
        exact ⟨⟨e, by simp, hcov.1⟩, fun h => hcov.2 h.2⟩
      · exact ⟨⟨f, by simp [hf], hcov⟩, hother f (.inr hf) hcov⟩
  · rintro ⟨⟨f, hf, hcov⟩, hn⟩
    rcases List.mem_append.mp hf with hf | hf
    · exact ⟨f, by simp [hf], hcov⟩
    · rcases List.mem_cons.mp hf with rfl | hf
      · exact ⟨_, by simp, (covers_carved hspace hfit).mpr ⟨hcov, fun h => hn ⟨hcov.2.1, h⟩⟩⟩
      · exact ⟨f, by simp [hf], hcov⟩

-- ---------------------------------------------------------------------------
-- Third loop
-- ---------------------------------------------------------------------------

theorem get_foldl_clear (f : Nat → Nat) (n : Nat) :
    b.get ((List.range n).foldl (fun ram k => b.set ram (f k) false) ram) i = true ↔
      (∀ k < n, f k ≠ i) ∧ b.get ram i = true := by
  induction n with
  | zero => simp
  | succ n ih =>
    rw [List.range_succ, List.foldl_append, List.foldl_cons, List.foldl_nil, Bitmap.get_set]
    constructor
    · intro h
      split at h
      · simp at h
      · rename_i hne
        obtain ⟨h₁, h₂⟩ := ih.mp h
        refine ⟨fun k hk => ?_, h₂⟩
        by_cases hkn : k = n
        · exact hkn ▸ Ne.symm hne
        · exact h₁ k (by omega)
    · rintro ⟨h₁, h₂⟩
      rw [if_neg (Ne.symm (h₁ n (by omega)))]
      exact ih.mpr ⟨fun k hk => h₁ k (by omega), h₂⟩

theorem get_freeEntry (ha : e.type = limineMemmapUsable → 4096 ∣ e.base ∧ 4096 ∣ e.length)
    (hspace : e.type = limineMemmapUsable → e.base + e.length ≤ 2 ^ 64) :
    b.get (freeEntry b ram e) i = true ↔ ¬e.Covers i ∧ b.get ram i = true := by
  unfold freeEntry
  split
  · rename_i hu
    obtain ⟨⟨base, hb⟩, ⟨len, hl⟩⟩ := ha hu
    have hle := hspace hu
    rw [get_foldl_clear, and_congr_left_iff]
    intro _
    unfold LimineMemmapEntry.Covers
    constructor
    · rintro hne ⟨-, h₁, h₂⟩
      exact hne (i - base) (by omega) (by rw [u64_of_lt (by omega)]; omega)
    · intro hn k hk heq
      rw [u64_of_lt (by omega)] at heq
      exact hn ⟨hu, by omega, by omega⟩
  · rename_i hu
    simp [LimineMemmapEntry.Covers, hu]

theorem get_foldl_freeEntry
    (ha : ∀ e ∈ mmap, e.type = limineMemmapUsable → 4096 ∣ e.base ∧ 4096 ∣ e.length)
    (hspace : ∀ e ∈ mmap, e.type = limineMemmapUsable → e.base + e.length ≤ 2 ^ 64) :
    b.get (mmap.foldl (freeEntry b) ram) i = true ↔ ¬UsablePage mmap i ∧ b.get ram i = true := by
  induction mmap generalizing ram with
  | nil => simp [UsablePage]
  | cons e es ih =>
    rw [List.foldl_cons, ih (fun f hf => ha f (by simp [hf])) (fun f hf => hspace f (by simp [hf])),
      get_freeEntry (ha e (by simp)) (hspace e (by simp))]
    simp only [UsablePage, List.mem_cons, exists_eq_or_imp, not_or]
    tauto

theorem get_memset_ones (hi : i < 8 * size) : b.get (memset ram b.buffer 0xFF size) i = true := by
  rw [Bitmap.get_eq, memset_apply, if_pos (by omega)]
  have hk : 7 - i % 8 < 8 := by omega
  generalize 7 - i % 8 = k at hk
  interval_cases k <;> rfl

-- ---------------------------------------------------------------------------
-- All three
-- ---------------------------------------------------------------------------

variable {sizeOf : Nat → Nat}

theorem initializeWith_highestAddr :
    (initializeWith sizeOf mmap ram).highestAddr =
      (mmap.foldl countEntry { ram, mmap }).highestAddr := by
  rw [initializeWith]
  unfold placeBitmap
  split <;> rfl

theorem initializeWith_eq (h : initializeWith sizeOf mmap ram = s) (hsize : size = sizeOf s.highestAddr)
    (hfit : ∃ e ∈ mmap, e.type = limineMemmapUsable ∧ size ≤ e.length) :
    ∃ l e r, mmap = l ++ e :: r ∧ firstFit size mmap = some e ∧ e.type = limineMemmapUsable ∧
      size ≤ e.length ∧ s = {
        ram := (l ++ { e with length := e.length - size, base := u64 (e.base + size) } :: r).foldl
          (freeEntry ⟨e.base⟩) (memset ram e.base 0xFF size)
        mmap := l ++ { e with length := e.length - size, base := u64 (e.base + size) } :: r
        bitmap := ⟨e.base⟩
        highestAddr := s.highestAddr
        freeRam := subU64 (u64 (usableBytes mmap)) size } := by
  obtain ⟨high, hcount, -, -, -⟩ := foldl_countEntry { ram, mmap } mmap
  have hfree : (mmap.foldl countEntry { ram, mmap }).freeRam = u64 (usableBytes mmap) := by
    rw [foldl_countEntry_freeRam (n := 0) rfl, Nat.zero_add]
  rw [hfree] at hcount
  have hhigh : s.highestAddr = high := by rw [← h, initializeWith_highestAddr, hcount]
  rw [hhigh] at hsize ⊢
  obtain ⟨base, mmap', hcarve⟩ := carve_isSome hfit
  obtain ⟨l, e, r, hmmap, hfirst, hu, hle, rfl, rfl⟩ := carve_eq hcarve
  refine ⟨l, e, r, hmmap, hfirst, hu, hle, ?_⟩
  rw [← h, initializeWith, hcount]
  simp only [← hsize, placeBitmap, hcarve]

/-- The state all three loops leave behind: the bitmap has the lowest pages of
one usable entry, and a page has a clear bit when it is usable and not one of
them. -/
theorem initializeWith_spec (hm : MapOk mmap)
    (h : initializeWith sizeOf mmap ram = s) (hsize : size = sizeOf s.highestAddr)
    (hdvd : 4096 ∣ size) (hfit : ∃ e ∈ mmap, e.type = limineMemmapUsable ∧ size ≤ e.length) :
    s.lastI = 0 ∧ s.usedRam = 0 ∧ s.highestAddr < 2 ^ 64 ∧ 4096 ∣ s.bitmap.buffer ∧
      s.freeRam = subU64 (u64 (usableBytes mmap)) size ∧
      (∀ e ∈ mmap, e.type = limineMemmapUsable → u64 (e.base + e.length) ≤ s.highestAddr) ∧
      (∃ e ∈ mmap, e.type = limineMemmapUsable ∧ s.bitmap.buffer = e.base ∧ size ≤ e.length) ∧
      ∀ i < 8 * size, s.bitmap.get s.ram i = true ↔
      ¬UsablePage mmap i ∨ BitmapPage s.bitmap size i := by
  obtain ⟨high, hcount, -, hlt, htop⟩ := foldl_countEntry { ram, mmap } mmap
  have hhigh : s.highestAddr = high := by rw [← h, initializeWith_highestAddr, hcount]
  obtain ⟨l, e, r, rfl, -, hu, hle, hs⟩ := initializeWith_eq h hsize hfit
  rw [hhigh] at hs
  subst hs
  obtain ⟨⟨eb, heb⟩, -⟩ := hm.aligned e (by simp) hu
  refine ⟨rfl, rfl, hlt (show 0 < 2 ^ 64 by decide), ⟨eb, heb⟩, rfl, htop,
    ⟨e, by simp, hu, rfl, hle⟩, ?_⟩
  intro i hi
  rw [get_foldl_freeEntry (fun f hf hfu => (mapOk_carved hm hu hle hdvd f hf hfu).1)
    fun f hf hfu => (mapOk_carved hm hu hle hdvd f hf hfu).2, usablePage_carved hm hu hle]
  have hset : Bitmap.get ⟨e.base⟩ (memset ram e.base 0xFF size) i = true :=
    get_memset_ones (b := ⟨e.base⟩) hi
  simp only [hset, and_true, BitmapPage]
  tauto

end

end PhysicalMemory

end LimineOS
