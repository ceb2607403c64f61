import LimineOS.Mm.PmmInit
import LimineOS.Lib.Ledger
import LimineOS.Lib.Transition
import Mathlib.Tactic.IntervalCases

/-!
# The allocator refines a ledger of disjoint blocks

`Pool` fixes what no call changes: where the bitmap lies and which pages it
may hand out. The abstract allocator is a `Ledger` over the pool's pages;
`Refines` says that the clear bits of the bitmap are the pages the ledger has
left. Each call of the source is a `take` or a `give` on the ledger
(`alloc_refines`, `free_refines`), so the ledger's own law, that no two
blocks share a page, holds after any run.
-/

namespace LimineOS

open ByteMemory Transition

structure Block where
  ptr : Nat
  size : Nat
  deriving DecidableEq, Repr

def Block.pages (b : Block) : Set Nat := span (b.ptr / 4096) b.size

namespace PhysicalMemory

/-- The part of the allocator's state that is fixed by `Initialize`. The bitmap
is whole pages and has a bit for every page below the highest address. -/
structure Pool where
  bitmap : Bitmap
  size : Nat
  highestAddr : Nat
  usable : Set Nat
  buffer_dvd : 4096 ∣ bitmap.buffer
  size_dvd : 4096 ∣ size
  covers : highestAddr / 4096 ≤ 8 * size
  inSpace : highestAddr < 2 ^ 64

namespace Pool

def limit (P : Pool) : Nat := P.highestAddr / 4096

def avail (P : Pool) : Set Nat := {i | i < P.limit ∧ i ∈ P.usable ∧ ¬BitmapPage P.bitmap P.size i}

theorem bytes_subset (P : Pool) : P.bitmap.bytes P.limit ⊆ span P.bitmap.buffer P.size := by
  have := P.covers
  exact span_subset (le_refl _) (by unfold limit; omega)

theorem block_disjoint_bytes (P : Pool) (h : span page count ⊆ P.avail) :
    Disjoint (span (4096 * page) (4096 * count)) (P.bitmap.bytes P.limit) := by
  rw [Set.disjoint_left]
  rintro a ⟨h₁, h₂⟩ hb
  obtain ⟨hb₁, hb₂⟩ := P.bytes_subset hb
  obtain ⟨q, hq⟩ := P.buffer_dvd
  obtain ⟨r, hr⟩ := P.size_dvd
  have hpage : a / 4096 ∈ P.avail := h ⟨by omega, by omega⟩
  exact hpage.2.2 ⟨by omega, by omega⟩

theorem get_memset (P : Pool) {ram : Mem} {val : Byte} (h : span page count ⊆ P.avail)
    (hi : i < P.limit) :
    P.bitmap.get (memset ram (4096 * page) val (4096 * count)) i = P.bitmap.get ram i := by
  have hsame : Set.EqOn (memset ram (4096 * page) val (4096 * count)) ram
      (P.bitmap.bytes P.limit) := fun a ha =>
    memset_eqOn _ _ _ _ (Set.disjoint_right.mp (P.block_disjoint_bytes h) ha)
  exact Bitmap.get_congr hsame hi

end Pool

structure Refines (P : Pool) (s : PhysicalMemory) (L : Ledger Block.pages P.avail) : Prop where
  bitmap : s.bitmap = P.bitmap
  highestAddr : s.highestAddr = P.highestAddr
  cursor : s.lastI ≤ P.limit
  bits : ∀ i < P.limit, P.bitmap.get s.ram i = false ↔ i ∈ P.avail ∧ i ∉ L.occupied

section
variable {P : Pool} {s s' : PhysicalMemory} {L : Ledger Block.pages P.avail} {n p page : Nat}

theorem Refines.set_iff (h : Refines P s L) (hi : i < P.limit) :
    P.bitmap.get s.ram i = true ↔ i ∉ P.usable ∨ BitmapPage P.bitmap P.size i ∨ i ∈ L.occupied := by
  have havail : i ∈ P.avail ↔ i < P.limit ∧ i ∈ P.usable ∧ ¬BitmapPage P.bitmap P.size i := Iff.rfl
  rw [← Bool.not_eq_false, h.bits i hi, havail]
  tauto

theorem Refines.clearRun (h : Refines P s L) (hrun : ClearRun s.bitmap s.ram page n)
    (hlim : page + n ≤ P.limit) : span page n ⊆ P.avail ∧ Disjoint (span page n) L.occupied := by
  rw [h.bitmap] at hrun
  have hbit : ∀ i ∈ span page n, i ∈ P.avail ∧ i ∉ L.occupied := by
    rintro i ⟨h₁, h₂⟩
    exact (h.bits i (by omega)).mp (hrun i h₁ h₂)
  exact ⟨fun i hi => (hbit i hi).1, Set.disjoint_left.mpr fun i hi => (hbit i hi).2⟩

/-- A successful `alloc` is a `take` of pages that were available and free. -/
theorem alloc_refines (h : Refines P s L) (ha : s.alloc n = some (p, s')) (hn : 1 ≤ n) :
    ∃ (hin : Block.pages ⟨p, n⟩ ⊆ P.avail) (hfree : Disjoint (Block.pages ⟨p, n⟩) L.occupied),
      4096 ∣ p ∧ Refines P s' (L.take ⟨p, n⟩ hin hfree) := by
  have hhigh : s.highestAddr < 2 ^ 64 := h.highestAddr ▸ P.inSpace
  have hlimit : s.limit = P.limit := by rw [limit, h.highestAddr, Pool.limit]
  obtain ⟨page, rfl, hle, hclear, hcase⟩ := alloc_cases ha hn hhigh (hlimit ▸ h.cursor)
  rw [hlimit] at hle
  obtain ⟨hin, hfree⟩ := h.clearRun hclear hle
  have hpages : Block.pages ⟨4096 * page, n⟩ = span page n := by
    rw [Block.pages, Nat.mul_div_cancel_left _ (by decide)]
  refine ⟨hpages ▸ hin, hpages ▸ hfree, Nat.dvd_mul_right _ _, ?_⟩
  -- the bits after marking the block, whether or not its memory is then zeroed
  have hbits : ∀ i < P.limit, P.bitmap.get (s.bitmap.setRange s.ram page n true) i = false ↔
      i ∈ P.avail ∧ i ∉ (L.take ⟨4096 * page, n⟩ (hpages ▸ hin) (hpages ▸ hfree)).occupied := by
    intro i hi
    rw [h.bitmap, Bitmap.get_setRange, Ledger.occupied_take, hpages]
    split
    · rename_i hi'
      simp only [Bool.true_eq_false, false_iff, not_and, Set.mem_union, not_not]
      exact fun _ => .inl hi'
    · rename_i hi'
      rw [h.bits i hi, Set.mem_union]
      have : i ∉ span page n := hi'
      tauto
  rcases hcase with ⟨-, rfl⟩ | ⟨-, -, rfl⟩
  · exact ⟨h.bitmap, h.highestAddr, hle, hbits⟩
  · refine ⟨h.bitmap, h.highestAddr, hle, fun i hi => ?_⟩
    rw [P.get_memset hin hi]
    exact hbits i hi

theorem free_refines (h : Refines P s L) (hb : ⟨p, n⟩ ∈ L.held) :
    Refines P (s.free p n) (L.give ⟨p, n⟩) := by
  refine ⟨h.bitmap, h.highestAddr, ?_, ?_⟩
  · have := h.cursor
    simp only [free]
    split <;> omega
  · intro i hi
    rw [Ledger.occupied_give L hb]
    simp only [free, h.bitmap, Bitmap.get_setRange]
    have havail : i ∈ Block.pages ⟨p, n⟩ → i ∈ P.avail := fun hx => L.inside _ hb hx
    by_cases hi' : p / 4096 ≤ i ∧ i < p / 4096 + n
    · have hmem : i ∈ Block.pages ⟨p, n⟩ := hi'
      rw [if_pos hi']
      simp [havail hmem, hmem]
    · have hmem : i ∉ Block.pages ⟨p, n⟩ := hi'
      rw [if_neg hi', h.bits i hi]
      simp [hmem]

end

-- ---------------------------------------------------------------------------
-- Runs
-- ---------------------------------------------------------------------------

inductive PmmCall
  | alloc (size : Nat)
  | free (ptr size : Nat)
  deriving DecidableEq, Repr

structure Session where
  pmm : PhysicalMemory
  held : List Block

/-- One call. Callers ask for at least one page and free only what they hold;
a call that halts or breaks this rule has no successor. -/
def Session.call (st : Session) : PmmCall → Option Session
  | .alloc size =>
    if 1 ≤ size then (st.pmm.alloc size).map fun r => ⟨r.2, ⟨r.1, size⟩ :: st.held⟩ else none
  | .free ptr size =>
    if ⟨ptr, size⟩ ∈ st.held then some ⟨st.pmm.free ptr size, st.held.erase ⟨ptr, size⟩⟩ else none

theorem Session.call_alloc {s s' : PhysicalMemory} {held : List Block} {n p : Nat}
    (ha : s.alloc n = some (p, s'))
    (hn : 1 ≤ n) : Steps Session.call ⟨s, held⟩ (.alloc n) ⟨s', ⟨p, n⟩ :: held⟩ := by
  rw [Steps, Session.call, if_pos hn, ha]
  rfl

theorem Session.call_free {s : PhysicalMemory} {held : List Block} {n p : Nat} (hb : ⟨p, n⟩ ∈ held) :
    Steps Session.call ⟨s, held⟩ (.free p n) ⟨s.free p n, held.erase ⟨p, n⟩⟩ := by
  rw [Steps, Session.call, if_pos hb]

theorem Session.alloc_cases {st st' : Session} {size : Nat}
    (hc : Steps Session.call st (.alloc size) st') :
    1 ≤ size ∧ ∃ p s', st.pmm.alloc size = some (p, s') ∧ st' = ⟨s', ⟨p, size⟩ :: st.held⟩ := by
  simp only [Steps, Session.call, Option.ite_none_right_eq_some, Option.map_eq_some_iff] at hc
  obtain ⟨hsize, ⟨p, s'⟩, ha, rfl⟩ := hc
  exact ⟨hsize, p, s', ha, rfl⟩

theorem Session.free_cases {st st' : Session} {ptr size : Nat}
    (hc : Steps Session.call st (.free ptr size) st') :
    ⟨ptr, size⟩ ∈ st.held ∧ st' = ⟨st.pmm.free ptr size, st.held.erase ⟨ptr, size⟩⟩ := by
  simp only [Steps, Session.call, Option.ite_none_right_eq_some, Option.some.injEq] at hc
  exact ⟨hc.1, hc.2.symm⟩

def Session.Sound (P : Pool) (st : Session) : Prop :=
  ∃ L : Ledger Block.pages P.avail, L.held = st.held ∧ Refines P st.pmm L

theorem Session.Sound.call {P : Pool} {st st' : Session} {c : PmmCall} (h : st.Sound P)
    (hc : Steps Session.call st c st') : st'.Sound P := by
  obtain ⟨L, hL, hr⟩ := h
  cases c with
  | alloc size =>
    obtain ⟨hsize, p, s', ha, rfl⟩ := Session.alloc_cases hc
    obtain ⟨hin, hfree, -, hr'⟩ := alloc_refines hr ha hsize
    exact ⟨L.take ⟨p, size⟩ hin hfree, by simp [Ledger.take, hL], hr'⟩
  | free ptr size =>
    obtain ⟨hmem, rfl⟩ := Session.free_cases hc
    exact ⟨L.give ⟨ptr, size⟩, by simp [Ledger.give, hL], free_refines hr (hL ▸ hmem)⟩

section
variable {mmap : List LimineMemmapEntry} {ram : Mem} {sizeOf : Nat → Nat} {size : Nat}
  {s : PhysicalMemory}

/-- `Initialize` sets up a pool none of whose pages is held. -/
theorem initializeWith_refines (hm : MapOk mmap) (h : initializeWith sizeOf mmap ram = s)
    (hsize : size = sizeOf s.highestAddr) (hdvd : 4096 ∣ size)
    (hcovers : s.highestAddr / 4096 ≤ 8 * size)
    (hfit : ∃ e ∈ mmap, e.type = limineMemmapUsable ∧ size ≤ e.length) :
    ∃ P : Pool, P.bitmap = s.bitmap ∧ P.size = size ∧ P.highestAddr = s.highestAddr ∧
      P.usable = {i | UsablePage mmap i} ∧ Refines P s Ledger.empty := by
  obtain ⟨hlast, -, hhigh, hbuf, -, -, -, hbits⟩ := initializeWith_spec hm h hsize hdvd hfit
  refine ⟨⟨s.bitmap, size, s.highestAddr, {i | UsablePage mmap i}, hbuf, hdvd, hcovers, hhigh⟩,
    rfl, rfl, rfl, rfl, rfl, rfl, by omega, ?_⟩
  intro i hi
  have hi' : i < s.highestAddr / 4096 := hi
  rw [← Bool.not_eq_true, hbits i (by omega), Ledger.occupied_empty]
  simp only [Set.mem_empty_iff_false, not_false_eq_true, and_true, not_or, not_not]
  exact ⟨fun h => ⟨hi', h⟩, fun h => h.2⟩

/-- Any run of `alloc` and matching `free` calls after `Initialize`: the bit of
a page is set exactly when the page is not usable, holds the bitmap or is in a
block still held, and what `alloc` returns next is none of these. -/
theorem run_alloc_free {st : Session} {calls : List PmmCall} (hm : MapOk mmap)
    (hsize : size = sizeOf (initializeWith sizeOf mmap ram).highestAddr) (hdvd : 4096 ∣ size)
    (hcovers : (initializeWith sizeOf mmap ram).highestAddr / 4096 ≤ 8 * size)
    (hfit : ∃ e ∈ mmap, e.type = limineMemmapUsable ∧ size ≤ e.length)
    (hrun : Run (Steps Session.call) ⟨initializeWith sizeOf mmap ram, []⟩ calls st) :
    (∀ i < st.pmm.highestAddr / 4096, st.pmm.bitmap.get st.pmm.ram i = true ↔
      ¬UsablePage mmap i ∨ BitmapPage (initializeWith sizeOf mmap ram).bitmap size i ∨
        ∃ b ∈ st.held, i ∈ b.pages) ∧
    ∀ n p s', 1 ≤ n → st.pmm.alloc n = some (p, s') → 4096 ∣ p ∧ ∀ i ∈ Block.pages ⟨p, n⟩,
      UsablePage mmap i ∧ ¬BitmapPage (initializeWith sizeOf mmap ram).bitmap size i ∧
        ∀ b ∈ st.held, i ∉ b.pages := by
  obtain ⟨P, hbitmap, hPsize, hhigh, husable, hinit⟩ :=
    initializeWith_refines hm rfl hsize hdvd hcovers hfit
  obtain ⟨L, hL, hr⟩ := hrun.invariant (I := Session.Sound P) ⟨.empty, rfl, hinit⟩ fun h hc => h.call hc
  have hocc : ∀ i, i ∈ L.occupied ↔ ∃ b ∈ st.held, i ∈ b.pages := by
    intro i
    rw [← hL]
    rfl
  rw [← hbitmap, ← hPsize]
  constructor
  · intro i hi
    rw [hr.highestAddr] at hi
    rw [hr.bitmap, hr.set_iff hi, hocc, husable]
    rfl
  · intro n p s' hn ha
    obtain ⟨hin, hfree, hdvd', -⟩ := alloc_refines hr ha hn
    refine ⟨hdvd', fun i hi => ?_⟩
    obtain ⟨-, hu, hb⟩ := hin hi
    rw [husable] at hu
    refine ⟨hu, hb, fun b hb' hib => ?_⟩
    exact Set.disjoint_left.mp hfree hi ((hocc i).mpr ⟨b, hb', hib⟩)

end

/-- Sixteen pages of which all but the first are usable. The bitmap takes page 1. -/
def sixteenPages : List LimineMemmapEntry := [⟨0x1000, 0xF000, limineMemmapUsable⟩]

theorem sixteenPages_ok : MapOk sixteenPages where
  aligned := by simp only [sixteenPages, List.mem_singleton]; rintro e rfl -; decide
  inSpace := by simp only [sixteenPages, List.mem_singleton]; rintro e rfl -; decide
  disjoint := by simp [sixteenPages]

theorem sixteenPages_fit : ∃ e ∈ sixteenPages, e.type = limineMemmapUsable ∧ 4096 ≤ e.length :=
  ⟨_, List.mem_singleton_self _, rfl, by decide⟩

theorem sixteenPages_init (ram : Mem) :
    (initializeWith bitmapSize sixteenPages ram).highestAddr = 0x10000 ∧
      (initializeWith bitmapSize sixteenPages ram).bitmap.buffer = 0x1000 := by
  simp [initializeWith, placeBitmap, carve, countEntry, sixteenPages, bitmapSize, alignUp,
    divRoundup, u64]

theorem sixteenPages_size (ram : Mem) :
    4096 = bitmapSize (initializeWith bitmapSize sixteenPages ram).highestAddr := by
  rw [(sixteenPages_init ram).1]
  decide

/-- Of sixteen pages, these are free. -/
structure FreePages (s : PhysicalMemory) (l : List Nat) : Prop where
  highestAddr : s.highestAddr = 0x10000
  buffer : s.bitmap.buffer = 0x1000
  bits : ∀ i < 16, s.bitmap.get s.ram i = !decide (i ∈ l)

section
variable {s : PhysicalMemory} {l : List Nat} {n page : Nat} {ram : Mem}

theorem FreePages.clearRun_iff (h : s.FreePages l) (hle : page + n ≤ 16) :
    ClearRun s.bitmap s.ram page n ↔ ∀ i < n, page + i ∈ l := by
  constructor
  · intro hclear i hi
    have hbit := hclear (page + i) (by omega) (by omega)
    rw [h.bits _ (by omega)] at hbit
    simpa using hbit
  · intro hall i h₁ h₂
    have hmem := hall (i - page) (by omega)
    rw [Nat.add_sub_cancel' h₁] at hmem
    rw [h.bits i (by omega)]
    simpa using hmem

theorem FreePages.limit_eq (h : s.FreePages l) : s.limit = 16 := by rw [limit, h.highestAddr]

theorem FreePages.setRange_eqOn (h : s.FreePages l) {value : Bool} (hle : page + n ≤ 16) :
    Set.EqOn (s.bitmap.setRange s.ram page n value) s.ram (span 0x1000 2)ᶜ := by
  have hset := s.bitmap.setRange_eqOn s.ram value hle
  rwa [Bitmap.bytes, h.buffer] at hset

theorem FreePages.alloc (h : s.FreePages l) (n page : Nat) (hn : 1 ≤ n) (hpage : page ≠ 0)
    (hge : s.lastI ≤ page) (hle : page + n ≤ 16)
    (hclear : ∀ i < n, page + i ∈ l) (hfirst : ∀ q < page, s.lastI ≤ q → ∃ i < n, q + i ∉ l) :
    ∃ s', s.alloc n = some (4096 * page, s') ∧ s'.lastI = page + n ∧
      Set.EqOn s'.ram s.ram (span 0x1000 2)ᶜ ∧
      s'.FreePages (l.filter fun i => i < page ∨ page + n ≤ i) := by
  have hfit : s.FirstFit n page := by
    refine ⟨hge, h.limit_eq.symm ▸ hle, (h.clearRun_iff hle).mpr hclear, fun q h₁ h₂ hrun => ?_⟩
    obtain ⟨i, hi, hnot⟩ := hfirst q h₂ h₁
    exact hnot ((h.clearRun_iff (by omega)).mp hrun i hi)
  refine ⟨_, alloc_firstFit hfit hn (by rw [h.highestAddr]; decide) hpage, rfl, h.setRange_eqOn hle,
    h.highestAddr, h.buffer, fun i hi => ?_⟩
  rw [Bitmap.get_setRange, h.bits i hi]
  by_cases hin : page ≤ i ∧ i < page + n
  · simp [hin]
  · have hout : i < page ∨ page + n ≤ i := by omega
    rw [if_neg hin]
    simp [hout]

theorem FreePages.free (h : s.FreePages l) (page n : Nat) (hle : page + n ≤ 16) :
    (s.free (4096 * page) n).lastI = min s.lastI page ∧
      Set.EqOn (s.free (4096 * page) n).ram s.ram (span 0x1000 2)ᶜ ∧
      (s.free (4096 * page) n).FreePages (List.range' page n ++ l) := by
  have hdiv : 4096 * page / 0x1000 = page := Nat.mul_div_cancel_left page (by decide)
  have hram : (s.free (4096 * page) n).ram = s.bitmap.setRange s.ram page n false := by
    rw [PhysicalMemory.free, hdiv]
  refine ⟨?_, hram ▸ h.setRange_eqOn hle, h.highestAddr, h.buffer, fun i hi => ?_⟩
  · simp only [PhysicalMemory.free, hdiv]
    split <;> omega
  simp only [PhysicalMemory.free, hdiv, Bitmap.get_setRange, h.bits i hi, List.mem_append,
    List.mem_range'_1]
  by_cases hin : page ≤ i ∧ i < page + n
  · simp [hin]
  · simp [hin]

theorem sixteenPages_freePages (ram : Mem) :
    (initializeMemory sixteenPages ram).lastI = 0 ∧
      (initializeMemory sixteenPages ram).FreePages
        [2, 3, 4, 5, 6, 7, 8, 9, 10, 11, 12, 13, 14, 15] := by
  obtain ⟨hlast, -, -, -, -, -, -, hbits⟩ :=
    initializeWith_spec sixteenPages_ok rfl (sixteenPages_size ram) (by decide) sixteenPages_fit
  obtain ⟨hhigh, hbuffer⟩ := sixteenPages_init ram
  refine ⟨hlast, hhigh, hbuffer, fun i hi => ?_⟩
  have husable : UsablePage sixteenPages i ↔ 1 ≤ i ∧ i < 16 := by
    simp only [UsablePage, sixteenPages, List.mem_singleton, exists_eq_left,
      LimineMemmapEntry.Covers, true_and]
    omega
  have hbit := hbits i (by omega)
  rw [husable, BitmapPage, hbuffer] at hbit
  show (initializeWith bitmapSize sixteenPages ram).bitmap.get
    (initializeWith bitmapSize sixteenPages ram).ram i = _
  rw [Bool.eq_iff_iff, hbit]
  interval_cases i <;> simp

theorem FreePages.write (h : s.FreePages l) {x : Nat} (val : Byte) (hx : x ∉ span 0x1000 2) :
    FreePages { s with ram := Function.update s.ram x val } l := by
  refine ⟨h.highestAddr, h.buffer, fun i hi => ?_⟩
  have hsame : Set.EqOn (Function.update s.ram x val) s.ram (s.bitmap.bytes 16) := fun y hy =>
    Function.update_of_ne (fun heq : y = x => hx (by rwa [Bitmap.bytes, h.buffer, heq] at hy)) _ _
  rw [Bitmap.get_congr hsame hi]
  exact h.bits i hi

end

theorem sixteenPages_alloc (ram : Mem) :
    ∃ p s', (initializeWith bitmapSize sixteenPages ram).alloc 2 = some (p, s') := by
  obtain ⟨hlast, hfree⟩ := sixteenPages_freePages ram
  obtain ⟨s', halloc, -⟩ := hfree.alloc 2 2 (by decide) (by decide) (by omega) (by decide) (by decide)
    (by rw [hlast]; decide)
  exact ⟨_, s', halloc⟩

theorem run_alloc_free_sixteenPages : ∃ s,
    Run (Steps Session.call) ⟨initializeWith bitmapSize sixteenPages fun _ => 0, []⟩
      [.alloc 2, .alloc 3, .free 0x2000 2, .alloc 1] ⟨s, [⟨0x2000, 1⟩, ⟨0x4000, 3⟩]⟩ ∧
    ∀ i < s.highestAddr / 4096, s.bitmap.get s.ram i = true ↔
      ¬UsablePage sixteenPages i ∨
        BitmapPage (initializeWith bitmapSize sixteenPages fun _ => 0).bitmap 4096 i ∨
        ∃ b ∈ [(⟨0x2000, 1⟩ : Block), ⟨0x4000, 3⟩], i ∈ b.pages := by
  obtain ⟨hlast₀, hfree₀⟩ := sixteenPages_freePages fun _ => 0
  obtain ⟨s₁, halloc₁, hlast₁, -, hfree₁⟩ := hfree₀.alloc 2 2 (by decide) (by decide) (by omega)
    (by decide) (by decide) (by rw [hlast₀]; decide)
  obtain ⟨s₂, halloc₂, hlast₂, -, hfree₂⟩ := hfree₁.alloc 3 4 (by decide) (by decide) (by omega)
    (by decide) (by decide) (by rw [hlast₁]; decide)
  obtain ⟨hlast₃, -, hfree₃⟩ := hfree₂.free 2 2 (by decide)
  obtain ⟨s₄, halloc₄, -⟩ := hfree₃.alloc 1 2 (by decide) (by decide) (by omega)
    (by decide) (by decide) (by rw [hlast₃, hlast₂]; decide)
  have hrun : Run (Steps Session.call) ⟨initializeWith bitmapSize sixteenPages fun _ => 0, []⟩
      [.alloc 2, .alloc 3, .free 0x2000 2, .alloc 1] ⟨s₄, [⟨0x2000, 1⟩, ⟨0x4000, 3⟩]⟩ :=
    .cons (Session.call_alloc halloc₁ (by decide)) <| .cons (Session.call_alloc halloc₂ (by decide)) <|
      .cons (Session.call_free (by decide)) <| .single (Session.call_alloc halloc₄ (by decide))
  exact ⟨s₄, hrun, (run_alloc_free sixteenPages_ok (sixteenPages_size _) (by decide)
    (by rw [(sixteenPages_init _).1]; decide) sixteenPages_fit hrun).1⟩

end PhysicalMemory

end LimineOS
