import LimineOS.Mm.VmmRuns
import Mathlib.Data.Finset.Card
import Mathlib.Order.Interval.Finset.Nat

/-!
# Pages in hand

A byte of RAM is free or held as the bit of its page says. In a sane state the
free bytes are not the bitmap's own, so an allocation hands out bytes that
nobody held (`Sane.alloc`). `Grow` is what any code that only allocates and
writes into what it holds does to the memory: held bytes stay held and change
only where that code writes, and what is left free has not been touched.
-/

namespace LimineOS

open ByteMemory

namespace PhysicalMemory

def Free (s : PhysicalMemory) (x : Nat) : Prop :=
  x / 4096 < s.limit ∧ s.bitmap.get s.ram (x / 4096) = false

def Held (s : PhysicalMemory) (x : Nat) : Prop :=
  x / 4096 < s.limit ∧ s.bitmap.get s.ram (x / 4096) = true

/-- No page that can be handed out has a byte of the bitmap, which is at `own`. -/
structure Sane (own : Set Nat) (s : PhysicalMemory) : Prop where
  bitmap : s.bitmap.bytes s.limit = own
  inSpace : s.highestAddr ≤ 2 ^ 63
  cursor : s.lastI ≤ s.limit
  apart : ∀ x, s.Free x → x ∉ own

/-- From `s` to `s'` only free pages were taken, and only they, the bitmap and
the bytes in `W` were written. -/
structure Grow (own W : Set Nat) (s s' : PhysicalMemory) : Prop where
  limit : s'.limit = s.limit
  mmap : s'.mmap = s.mmap
  held : ∀ x, s.Held x → s'.Held x
  ram : ∀ x, s.Held x → x ∉ own → x ∉ W → s'.ram x = s.ram x
  free : ∀ x, s'.Free x → s.Free x ∧ s'.ram x = s.ram x

section
variable {own W W' : Set Nat} {s s' s'' : PhysicalMemory} {ram : Mem} {n p x : Nat}

theorem Held.not_free (h : s.Held x) : ¬s.Free x := fun hf => by
  have := h.2.symm.trans hf.2
  simp at this

theorem Grow.free_or_held (h : Grow own W s s') (hx : s'.Held x) : s.Free x ∨ s.Held x := by
  have hlimit := h.limit ▸ hx.1
  cases hbit : s.bitmap.get s.ram (x / 4096) with
  | false => exact .inl ⟨hlimit, hbit⟩
  | true => exact .inr ⟨hlimit, hbit⟩

theorem Grow.refl : Grow own W s s := ⟨rfl, rfl, fun _ h => h, fun _ _ _ _ => rfl, fun _ h => ⟨h, rfl⟩⟩

/-- What the later part writes it either holds from before, or took itself. -/
theorem Grow.trans (h : Grow own W s s') (h' : Grow own W' s' s'') (hW : ∀ x ∈ W', s.Held x → x ∈ W) :
    Grow own W s s'' where
  limit := h'.limit.trans h.limit
  mmap := h'.mmap.trans h.mmap
  held x hx := h'.held x (h.held x hx)
  ram x hx hown hnot := by
    rw [h'.ram x (h.held x hx) hown fun hx' => hnot (hW x hx' hx), h.ram x hx hown hnot]
  free x hx := by
    obtain ⟨hx', hram'⟩ := h'.free x hx
    obtain ⟨hx'', hram⟩ := h.free x hx'
    exact ⟨hx'', hram'.trans hram⟩

theorem Grow.mono (h : Grow own W s s') (hW : ∀ x ∈ W, s.Held x → x ∈ W') : Grow own W' s s' :=
  Grow.refl.trans h hW

theorem Sane.write (h : Sane own s) (hram : ∀ x ∉ W, ram x = s.ram x) (hheld : ∀ x ∈ W, s.Held x)
    (hown : ∀ x ∈ W, x ∉ own) : Sane own { s with ram } ∧ Grow own W s { s with ram } := by
  have hbits : ∀ j < s.limit, s.bitmap.get ram j = s.bitmap.get s.ram j := by
    intro j hj
    have hon : Set.EqOn ram s.ram (s.bitmap.bytes s.limit) :=
      fun x hx => hram x fun hW => hown x hW (h.bitmap ▸ hx)
    exact Bitmap.get_congr hon hj
  have hfree : ∀ x, Free { s with ram } x → s.Free x :=
    fun x hx => ⟨hx.1, (hbits _ hx.1).symm.trans hx.2⟩
  refine ⟨⟨h.bitmap, h.inSpace, h.cursor, fun x hx => h.apart x (hfree x hx)⟩,
    ⟨rfl, rfl, fun x hx => ?_, ?_, ?_⟩⟩
  · exact ⟨hx.1, (hbits _ hx.1).trans hx.2⟩
  · intro x _ _ hnot
    exact hram x hnot
  · intro x hx
    exact ⟨hfree x hx, hram x fun hW => (hheld x hW).not_free (hfree x hx)⟩

theorem Sane.held_write (h : Sane own s) (hram : ∀ x ∈ own, ram x = s.ram x) :
    Held { s with ram } x ↔ s.Held x := by
  refine and_congr_right fun hx => ?_
  have hon : Set.EqOn ram s.ram (s.bitmap.bytes s.limit) := fun y hy => hram y (h.bitmap ▸ hy)
  exact iff_of_eq (congrArg (· = true) (Bitmap.get_congr hon hx))

theorem Sane.seek {lastI : Nat} (h : Sane own s) (hlast : lastI ≤ s.limit) :
    Sane own { s with lastI } :=
  ⟨h.bitmap, h.inSpace, hlast, h.apart⟩

theorem alloc_ne_null (h : s.alloc n = some (p, s')) : p ≠ 0 := by
  simp only [PhysicalMemory.alloc] at h
  split at h
  · split at h
    · exact absurd h (by simp)
    · obtain ⟨rfl, -⟩ := Prod.mk.inj (Option.some.inj h)
      assumption
  · obtain ⟨rfl, -⟩ := Prod.mk.inj (Option.some.inj h)
    assumption

structure Allocated (own : Set Nat) (s s' : PhysicalMemory) (p n : Nat) : Prop where
  sane : Sane own s'
  grow : Grow own ∅ s s'
  aligned : 4096 ∣ p
  free : ∀ x ∈ span p (4096 * n), s.Free x
  held : ∀ x ∈ span p (4096 * n), s'.Held x
  zero : ∀ x ∈ span p (4096 * n), s.ram x = 0 → s'.ram x = 0
  rest : ∀ x, s.Free x → x ∉ span p (4096 * n) → s'.Free x

structure Marked (own : Set Nat) (s s' : PhysicalMemory) (page n : Nat) : Prop where
  bitmap : s'.bitmap = s.bitmap
  highestAddr : s'.highestAddr = s.highestAddr
  mmap : s'.mmap = s.mmap
  lastI : s'.lastI = page + n
  bits : ∀ j < s.limit, s.bitmap.get s'.ram j =
    if page ≤ j ∧ j < page + n then true else s.bitmap.get s.ram j
  ram : ∀ x, x ∉ own → x ∉ span (4096 * page) (4096 * n) → s'.ram x = s.ram x
  zero : ∀ x ∈ span (4096 * page) (4096 * n), s.ram x = 0 → s'.ram x = 0

theorem Sane.marked (h : Sane own s) (hn : 1 ≤ n) (ha : s.alloc n = some (p, s')) :
    ∃ page, p = 4096 * page ∧ page + n ≤ s.limit ∧ (∀ x ∈ span (4096 * page) (4096 * n), s.Free x) ∧
      Marked own s s' page n := by
  have hspace := h.inSpace
  obtain ⟨page, rfl, hle, hclear, hcase⟩ := alloc_cases ha hn (by omega) h.cursor
  have hfree : ∀ x ∈ span (4096 * page) (4096 * n), s.Free x := by
    intro x hx
    rw [mem_span] at hx
    exact ⟨by omega, hclear _ (by omega) (by omega)⟩
  have hset := Bitmap.setRange_eqOn s.bitmap s.ram true hle
  rw [h.bitmap] at hset
  refine ⟨page, rfl, hle, hfree, ?_⟩
  rcases hcase with ⟨-, rfl⟩ | ⟨-, -, rfl⟩
  · refine ⟨rfl, rfl, rfl, rfl, fun j _ => Bitmap.get_setRange ..,
      fun x hx _ => hset hx, fun x hx hx0 => ?_⟩
    exact (hset (h.apart x (hfree x hx))).trans hx0
  · refine ⟨rfl, rfl, rfl, rfl, fun j hj => ?_, fun x hx hnot => ?_, fun x hx _ => ?_⟩
    · rw [← Bitmap.get_setRange]
      have hon : Set.EqOn (memset (s.bitmap.setRange s.ram page n true) (4096 * page) 0 (4096 * n))
          (s.bitmap.setRange s.ram page n true) (s.bitmap.bytes s.limit) := fun x hx =>
        memset_eqOn _ _ _ _ fun hx' => h.apart x (hfree x hx') (h.bitmap ▸ hx)
      exact Bitmap.get_congr hon hj
    · exact (memset_eqOn _ _ _ _ hnot).trans (hset hx)
    · exact (memset_apply ..).trans (if_pos hx)

theorem Sane.alloc (h : Sane own s) (hn : 1 ≤ n) (ha : s.alloc n = some (p, s')) :
    Allocated own s s' p n := by
  obtain ⟨page, rfl, hle, hfree, hm⟩ := h.marked hn ha
  have hlimit : s'.limit = s.limit := by rw [limit, limit, hm.highestAddr]
  have hbit : ∀ j < s.limit, s'.bitmap.get s'.ram j =
      if page ≤ j ∧ j < page + n then true else s.bitmap.get s.ram j :=
    fun j hj => hm.bitmap ▸ hm.bits j hj
  have hfree' : ∀ x, s'.Free x → s.Free x ∧ x ∉ span (4096 * page) (4096 * n) := by
    rintro x ⟨hx, hclear⟩
    rw [hlimit] at hx
    rw [hbit _ hx] at hclear
    split_ifs at hclear with hin
    refine ⟨⟨hx, hclear⟩, fun hmem => hin ?_⟩
    rw [mem_span] at hmem
    omega
  refine ⟨⟨?_, hm.highestAddr ▸ h.inSpace, ?_, fun x hx => h.apart x (hfree' x hx).1⟩,
    ⟨hlimit, hm.mmap, ?_, ?_, ?_⟩, Dvd.intro _ rfl, hfree, ?_, hm.zero, ?_⟩
  · rw [hm.bitmap, hlimit, h.bitmap]
  · rw [hm.lastI, hlimit]
    exact hle
  · rintro x ⟨hx, hset⟩
    refine ⟨hlimit ▸ hx, ?_⟩
    rw [hbit _ hx, hset, ite_self]
  · intro x hx hown _
    exact hm.ram x hown fun hmem => hx.not_free (hfree x hmem)
  · intro x hx
    obtain ⟨hx', hnot⟩ := hfree' x hx
    exact ⟨hx', hm.ram x (h.apart x hx') hnot⟩
  · intro x hx
    have hx' := (hfree x hx).1
    refine ⟨hlimit ▸ hx', ?_⟩
    rw [mem_span] at hx
    rw [hbit _ hx', if_pos (by omega)]
  · intro x hx hnot
    refine ⟨hlimit ▸ hx.1, ?_⟩
    rw [mem_span] at hnot
    rw [hbit _ hx.1, if_neg (by omega)]
    exact hx.2

theorem Allocated.held_of_not_mem (h : Allocated own s s' p n) (hx : s'.Held x)
    (hnot : x ∉ span p (4096 * n)) : s.Held x :=
  (h.grow.free_or_held hx).resolve_left fun hfree => hx.not_free (h.rest x hfree hnot)

theorem Allocated.fill {k : Nat} (h : Allocated own s s' p n) (hs : Sane own s) (hk : k ≤ 4096 * n) :
    Sane own { s' with ram := memset s'.ram p 0 k } ∧
      Grow own ∅ s { s' with ram := memset s'.ram p 0 k } ∧
      (∀ x ∈ span p (4096 * n), Held { s' with ram := memset s'.ram p 0 k } x) ∧
      ∀ x ∈ span p k, ({ s' with ram := memset s'.ram p 0 k } : PhysicalMemory).ram x = 0 := by
  have hsub : ∀ x ∈ span p k, x ∈ span p (4096 * n) := fun x hx => span_subset (le_refl p) (by omega) hx
  obtain ⟨hsane, hgrow⟩ := h.sane.write (W := span p k) (fun x hx => memset_eqOn s'.ram p 0 k hx)
    (fun x hx => h.held x (hsub x hx)) fun x hx => hs.apart x (h.free x (hsub x hx))
  refine ⟨hsane, h.grow.trans hgrow fun x hx hheld => ?_,
    fun x hx => hgrow.held x (h.held x hx), fun x hx => ?_⟩
  · exact absurd (h.free x (hsub x hx)) hheld.not_free
  · exact (memset_apply ..).trans (if_pos hx)

theorem Sane.release (h : Sane own s) (hp : 4096 ∣ p) (hheld : ∀ x ∈ span p (4096 * n), s.Held x)
    (hout : ∀ x ∈ span p (4096 * n), x ∉ own) :
    Sane own (s.free p n) ∧ (∀ x, x ∉ own → (s.free p n).ram x = s.ram x) ∧
      ∀ x, (s.free p n).Held x ↔ s.Held x ∧ x ∉ span p (4096 * n) := by
  obtain ⟨page, rfl⟩ := hp
  have hdiv : 4096 * page / 0x1000 = page := Nat.mul_div_cancel_left page (by decide)
  have hlimit : page + n ≤ s.limit ∨ n = 0 := by
    rcases Nat.eq_zero_or_pos n with h0 | hpos
    · exact .inr h0
    · have := (hheld (4096 * (page + n - 1)) ⟨by omega, by omega⟩).1
      omega
  have hram : (s.free (4096 * page) n).ram = s.bitmap.setRange s.ram page n false := by
    rw [PhysicalMemory.free, hdiv]
  have hon : Set.EqOn (s.free (4096 * page) n).ram s.ram ownᶜ := by
    rw [hram]
    rcases hlimit with hle | rfl
    · have hset := s.bitmap.setRange_eqOn s.ram false hle
      rwa [h.bitmap] at hset
    · exact fun _ _ => rfl
  have hbit : ∀ j, s.bitmap.get (s.free (4096 * page) n).ram j =
      if page ≤ j ∧ j < page + n then false else s.bitmap.get s.ram j := fun j => by
    rw [hram, Bitmap.get_setRange]
  refine ⟨⟨h.bitmap, h.inSpace, ?_, fun x hx => ?_⟩, fun x hx => hon hx, fun x => ?_⟩
  · have hcursor := h.cursor
    show (if s.lastI > 4096 * page / 0x1000 then 4096 * page / 0x1000 else s.lastI) ≤ s.limit
    split <;> omega
  · by_cases hin : x ∈ span (4096 * page) (4096 * n)
    · exact hout x hin
    · have hclear : s.bitmap.get (s.free (4096 * page) n).ram (x / 4096) = false := hx.2
      rw [mem_span] at hin
      rw [hbit, if_neg (by omega)] at hclear
      exact h.apart x ⟨hx.1, hclear⟩
  · have hbitx : (s.free (4096 * page) n).bitmap.get (s.free (4096 * page) n).ram (x / 4096) = _ :=
      hbit (x / 4096)
    rw [Held, Held, hbitx, mem_span]
    split_ifs with hin
    · exact iff_of_false (fun hno => absurd hno.2 (by decide)) fun hno => hno.2 (by omega)
    · exact (and_iff_left (by omega)).symm

-- ---------------------------------------------------------------------------
-- Counting pages
-- ---------------------------------------------------------------------------

def freePages (s : PhysicalMemory) : Finset Nat :=
  (Finset.range s.limit).filter fun i => s.bitmap.get s.ram i = false

theorem mem_freePages {i : Nat} : i ∈ s.freePages ↔ s.Free (4096 * i) := by
  rw [freePages, Finset.mem_filter, Finset.mem_range, Free, Nat.mul_div_cancel_left i (by decide)]

theorem Allocated.freePages_lt (h : Allocated own s s' p n) (hn : 1 ≤ n) :
    s'.freePages.card < s.freePages.card := by
  have hsub : s'.freePages ⊆ s.freePages :=
    fun i hi => mem_freePages.mpr (h.grow.free _ (mem_freePages.mp hi)).1
  obtain ⟨q, rfl⟩ := h.aligned
  have hmem : 4096 * q ∈ span (4096 * q) (4096 * n) := ⟨le_refl _, by omega⟩
  refine Finset.card_lt_card
    ((Finset.ssubset_iff_of_subset hsub).mpr ⟨q, mem_freePages.mpr (h.free _ hmem), fun hq => ?_⟩)
  exact (h.held _ hmem).not_free (mem_freePages.mp hq)

theorem card_le_of_span {A B : Finset Nat} (h : ∀ i ∈ A, i ∉ B → 4096 * i ∈ span p (4096 * n)) :
    A.card ≤ B.card + n := by
  have hsub : A \ B ⊆ Finset.Ico ((p + 4095) / 4096) ((p + 4095) / 4096 + n) := fun i hi => by
    obtain ⟨hA, hB⟩ := Finset.mem_sdiff.mp hi
    have hin := h i hA hB
    rw [mem_span] at hin
    rw [Finset.mem_Ico]
    omega
  have hle := Finset.card_le_card hsub
  rw [Nat.card_Ico, Nat.add_sub_cancel_left] at hle
  have hsplit : A.card ≤ (A \ B).card + B.card := Finset.card_le_card_sdiff_add_card
  omega

/-- Of twice as many clear pages the cursor leaves a half undivided. -/
theorem Sane.alloc_isSome (h : Sane own s) (hzero : ¬s.Free 0) (hn : 1 ≤ n) (hlim : p + 2 * n ≤ s.limit)
    (hclear : ∀ i, p ≤ i → i < p + 2 * n → i ∈ s.freePages) : ∃ q s', s.alloc n = some (q, s') := by
  have hspace := h.inSpace
  have hrun : ∀ q, p ≤ q → q ≤ p + n → ClearRun s.bitmap s.ram q n := fun q h₁ h₂ i h₃ h₄ => by
    have hfree := (mem_freePages.mp (hclear i (by omega) (by omega))).2
    rwa [Nat.mul_div_cancel_left i (by decide)] at hfree
  have hbit : s.bitmap.get s.ram 0 = true := by
    by_contra hbit
    exact hzero ⟨by omega, Bool.not_eq_true _ ▸ hbit⟩
  by_cases hge : s.lastI ≤ p + n
  · exact PhysicalMemory.alloc_isSome (hrun (p + n) (by omega) (le_refl _)) hge (by omega) hn
      (by omega) hbit
  · exact alloc_isSome_below (hrun p (le_refl p) (by omega)) (by omega) hn (by omega) h.cursor hbit

/-- With fewer pages taken than there are windows of twice the pages asked for, one
of these windows is clear. -/
theorem Sane.alloc_isSome_of_card (h : Sane own s) (hzero : ¬s.Free 0) (hn : 1 ≤ n)
    (hcard : s.limit < s.freePages.card + s.limit / (2 * n)) : ∃ q s', s.alloc n = some (q, s') := by
  by_contra hno
  have htaken : ∀ k, k ∈ Finset.range (s.limit / (2 * n)) →
      ∃ i, i ∈ Finset.range s.limit \ s.freePages ∧ i / (2 * n) = k := by
    intro k hk
    have hlim : k * (2 * n) + 2 * n ≤ s.limit := by
      rw [← Nat.succ_mul]
      exact (Nat.le_div_iff_mul_le (by omega)).mp (Finset.mem_range.mp hk)
    by_contra hclear
    refine hno (h.alloc_isSome hzero hn hlim fun i h₁ h₂ => ?_)
    by_contra hi
    refine hclear ⟨i, Finset.mem_sdiff.mpr ⟨Finset.mem_range.mpr (by omega), hi⟩, ?_⟩
    exact Nat.div_eq_of_lt_le h₁ (by rw [Nat.succ_mul]; exact h₂)
  choose! f hf hdiv using htaken
  have hle := Finset.card_le_card_of_injOn f hf fun k hk l hl heq => by
    rw [← hdiv k hk, ← hdiv l hl, heq]
  have hsub : s.freePages ⊆ Finset.range s.limit := Finset.filter_subset _ _
  rw [Finset.card_range, Finset.card_sdiff_of_subset hsub, Finset.card_range] at hle
  have hcard' := Finset.card_le_card hsub
  rw [Finset.card_range] at hcard'
  omega

end

end PhysicalMemory

end LimineOS
