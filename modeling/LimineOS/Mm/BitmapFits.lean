import LimineOS.Lib.Logged
import LimineOS.Mm.Frames

/-!
# The bitmap fits its storage

The functions of the allocator again, with a log of the indices they hand to
`Bitmap::Set` and `Bitmap::operator[]`. `bitmapFits_iff` says for which memory
maps all of them, over any sequence of calls, stay in the bytes that
`Initialize` set aside.
-/

namespace LimineOS

open ByteMemory Transition Logged

namespace Bitmap

def setL (b : Bitmap) (ram : Mem) (index : Nat) (value : Bool) : Logged Nat Mem :=
  use index (b.set ram index value)

def getL (b : Bitmap) (ram : Mem) (index : Nat) : Logged Nat Bool := use index (b.get ram index)

def setRangeL (b : Bitmap) : Mem → Nat → Nat → Bool → Logged Nat Mem
  | ram, _, 0, _ => pure ram
  | ram, first, count + 1, value => do
    let ram ← b.setL ram first value
    b.setRangeL ram (first + 1) count value

theorem setRangeL_val {b : Bitmap} {ram : Mem} {first count : Nat} {value : Bool} :
    (b.setRangeL ram first count value).val = b.setRange ram first count value := by
  induction count generalizing ram first with
  | zero => rfl
  | succ count ih => exact ih

theorem setRangeL_uses {b : Bitmap} {ram : Mem} {first count : Nat} {value : Bool} {P : Nat → Prop}
    (h : ∀ i ∈ span first count, P i) : Uses P (b.setRangeL ram first count value) := by
  induction count generalizing ram first with
  | zero => exact .pure
  | succ count ih =>
    refine .bind (.use (h first ⟨le_refl _, by omega⟩)) (ih fun i hi => h i ?_)
    rw [mem_span] at hi ⊢
    omega

end Bitmap

namespace PhysicalMemory

def freeEntryL (b : Bitmap) (ram : Mem) (e : LimineMemmapEntry) : Logged Nat Mem :=
  if e.type = limineMemmapUsable then
    (List.range ((e.length + 4095) / 4096)).foldlM
      (fun ram k => b.setL ram (u64 (e.base + 4096 * k) / 4096) false) ram
  else pure ram

def initializeMemoryL (mmap : List LimineMemmapEntry) (ram : Mem) : Logged Nat PhysicalMemory := do
  let s := mmap.foldl countEntry { ram, mmap }
  let s := s.placeBitmap (bitmapSize s.highestAddr)
  let ram ← s.mmap.foldlM (freeEntryL s.bitmap) s.ram
  pure { s with ram }

def scanL (b : Bitmap) (ram : Mem) (count : Nat) : Nat → Nat → Nat → Logged Nat (Option Nat × Nat)
  | 0, lastI, _ => pure (none, lastI)
  | left + 1, lastI, p => do
    if !(← b.getL ram lastI) then
      if p + 1 = count then pure (some (lastI + 1 - count), lastI + 1)
      else scanL b ram count left (lastI + 1) (p + 1)
    else scanL b ram count left (lastI + 1) 0

def innerAllocL (s : PhysicalMemory) (count limit : Nat) : Logged Nat (Nat × PhysicalMemory) := do
  match ← scanL s.bitmap s.ram count (limit - s.lastI) s.lastI 0 with
  | (none, lastI) => pure (0, { s with lastI })
  | (some page, lastI) => do
    let ram ← s.bitmap.setRangeL s.ram page count true
    pure (u64 (page * 4096), { s with lastI, ram })

def allocL (s : PhysicalMemory) (size : Nat) : Logged Nat (Option (Nat × PhysicalMemory)) := do
  let i := s.lastI
  let (ret, s) ← s.innerAllocL size (s.highestAddr / 0x1000)
  if ret = 0 then
    let (ret, s) ← { s with lastI := 0 }.innerAllocL size i
    if ret = 0 then pure none
    else
      pure (some (ret, { s with
        ram := memset s.ram ret 0 (u64 (size * 4096))
        usedRam := u64 (s.usedRam + size * 0x1000)
        freeRam := subU64 s.freeRam (size * 0x1000) }))
  else pure (some (ret, s))

def freeL (s : PhysicalMemory) (ptr size : Nat) : Logged Nat PhysicalMemory := do
  let page := ptr / 0x1000
  let ram ← s.bitmap.setRangeL s.ram page size false
  pure { s with
    ram
    lastI := if s.lastI > page then page else s.lastI
    usedRam := subU64 s.usedRam (size * 0x1000)
    freeRam := u64 (s.freeRam + size * 0x1000) }

section
variable {b : Bitmap} {ram : Mem} {count left lastI p lim size : Nat} {s : PhysicalMemory}
  {e : LimineMemmapEntry}
  {mmap : List LimineMemmapEntry}

-- ---------------------------------------------------------------------------
-- The log changes nothing
-- ---------------------------------------------------------------------------

theorem freeEntryL_val : (freeEntryL b ram e).val = freeEntry b ram e := by
  unfold freeEntryL freeEntry
  split
  · exact val_foldlM (fun _ _ => rfl) _ _
  · rfl

theorem initializeMemoryL_val : (initializeMemoryL mmap ram).val = initializeMemory mmap ram := by
  rw [initializeMemoryL, val_bind, val_pure, val_foldlM (fun _ _ => freeEntryL_val)]
  rfl

theorem scanL_val : (scanL b ram count left lastI p).val = scan b ram count left lastI p := by
  induction left generalizing lastI p with
  | zero => rfl
  | succ left ih =>
    rw [scanL, scan, val_bind, Bitmap.getL, val_use]
    split
    · split
      · rfl
      · exact ih
    · exact ih

theorem innerAllocL_val : (s.innerAllocL count lim).val = s.innerAlloc count lim := by
  rw [innerAllocL, innerAlloc, val_bind, scanL_val]
  rcases scan s.bitmap s.ram count (lim - s.lastI) s.lastI 0 with ⟨_ | page, lastI⟩
  · rfl
  · dsimp only
    rw [val_bind, Bitmap.setRangeL_val]
    rfl

theorem allocL_val : (s.allocL size).val = s.alloc size := by
  rw [allocL, alloc, val_bind, innerAllocL_val]
  rcases s.innerAlloc size (s.highestAddr / 0x1000) with ⟨ret, s₁⟩
  dsimp only
  split
  · rw [val_bind, innerAllocL_val]
    rcases { s₁ with lastI := 0 }.innerAlloc size s.lastI with ⟨ret, s₂⟩
    split <;> rfl
  · rfl

theorem freeL_val {ptr : Nat} : (s.freeL ptr size).val = s.free ptr size := by
  rw [freeL, free, val_bind, Bitmap.setRangeL_val]
  rfl

-- ---------------------------------------------------------------------------
-- Which indices are used
-- ---------------------------------------------------------------------------

def clearedBits (e : LimineMemmapEntry) : Set Nat :=
  {i | e.type = limineMemmapUsable ∧ ∃ k < (e.length + 4095) / 4096, u64 (e.base + 4096 * k) / 4096 = i}

theorem mem_log_freeEntryL : i ∈ (freeEntryL b ram e).log ↔ i ∈ clearedBits e := by
  unfold freeEntryL
  split
  · rename_i hu
    have hcells : ∀ (ram : Mem) (k i : Nat),
        i ∈ (b.setL ram (u64 (e.base + 4096 * k) / 4096) false).log ↔
        i ∈ ({u64 (e.base + 4096 * k) / 4096} : Set Nat) := fun _ _ _ => List.mem_singleton
    rw [mem_log_foldlM hcells]
    simp only [List.mem_range, Set.mem_singleton_iff, clearedBits, Set.mem_ofPred_eq, hu, true_and,
      eq_comm]
  · rename_i hu
    simp [clearedBits, hu]

theorem mem_log_initializeMemoryL :
    i ∈ (initializeMemoryL mmap ram).log ↔
      ∃ e ∈ (initializeMemory mmap ram).mmap, i ∈ clearedBits e := by
  have hcells : ∀ (b : Bitmap) (ram : Mem) (e : LimineMemmapEntry) (i : Nat),
      i ∈ (freeEntryL b ram e).log ↔ i ∈ clearedBits e := fun _ _ _ _ => mem_log_freeEntryL
  rw [initializeMemoryL, log_bind, log_pure, List.append_nil, mem_log_foldlM (hcells _)]
  rfl

theorem mem_clearedBits (ha : e.type = limineMemmapUsable → 4096 ∣ e.base ∧ 4096 ∣ e.length)
    (hspace : e.type = limineMemmapUsable → e.base + e.length ≤ 2 ^ 64) :
    i ∈ clearedBits e ↔ e.Covers i := by
  rw [clearedBits, Set.mem_ofPred_eq, LimineMemmapEntry.Covers, and_congr_right_iff]
  intro hu
  obtain ⟨⟨base, hb⟩, ⟨len, hl⟩⟩ := ha hu
  have hle := hspace hu
  constructor
  · rintro ⟨k, hk, rfl⟩
    rw [u64_of_lt (by omega)]
    omega
  · rintro ⟨h₁, h₂⟩
    refine ⟨i - base, by omega, ?_⟩
    rw [u64_of_lt (by omega)]
    omega

theorem scanL_uses : Uses (fun i => lastI ≤ i ∧ i < lastI + left) (scanL b ram count left lastI p) := by
  induction left generalizing lastI p with
  | zero => exact .pure
  | succ left ih =>
    rw [scanL]
    refine .bind (.use ⟨le_refl _, by omega⟩) ?_
    have hrest : ∀ p, Uses (fun i => lastI ≤ i ∧ i < lastI + (left + 1))
        (scanL b ram count left (lastI + 1) p) :=
      fun p => ih.mono fun i hi => by omega
    split
    · split
      · exact .pure
      · exact hrest _
    · exact hrest 0

theorem mem_log_scanL (hcount : left + p < count) (h₁ : lastI ≤ i) (h₂ : i < lastI + left) :
    i ∈ (scanL b ram count left lastI p).log := by
  induction left generalizing lastI p with
  | zero => omega
  | succ left ih =>
    rw [scanL, log_bind, Bitmap.getL, log_use, val_use, List.mem_append, List.mem_singleton]
    by_cases hi : i = lastI
    · exact .inl hi
    · right
      split
      · rw [if_neg (by omega)]
        exact ih (by omega) (by omega) (by omega)
      · exact ih (by omega) (by omega) (by omega)

theorem innerAllocL_uses : Uses (· < lim) (s.innerAllocL count lim) := by
  rw [innerAllocL]
  refine .bind (scanL_uses.mono fun i hi => by omega) ?_
  rw [scanL_val]
  rcases hscan : scan s.bitmap s.ram count (lim - s.lastI) s.lastI 0 with ⟨_ | page, lastI⟩
  · exact .pure
  · refine .bind (Bitmap.setRangeL_uses fun i hi => ?_) .pure
    rw [mem_span] at hi
    obtain ⟨h₁, h₂, h₃, -⟩ := scan_some hscan (by omega) (by omega) (fun i _ _ => by omega)
    omega

theorem allocL_uses (hlast : s.lastI ≤ s.limit) : Uses (· < s.limit) (s.allocL size) := by
  rw [allocL]
  refine .bind innerAllocL_uses ?_
  rcases (s.innerAllocL size (s.highestAddr / 0x1000)).val with ⟨ret, s₁⟩
  dsimp only
  split
  · refine .bind (innerAllocL_uses.mono fun i hi => by omega) ?_
    rcases ({ s₁ with lastI := 0 }.innerAllocL size s.lastI).val with ⟨ret, s₂⟩
    split
    · exact .pure
    · exact .pure
  · exact .pure

theorem freeL_uses {ptr : Nat} : Uses (· ∈ Block.pages ⟨ptr, size⟩) (s.freeL ptr size) :=
  .bind (Bitmap.setRangeL_uses fun _ hi => hi) .pure

theorem mem_log_allocL (hlast : s.lastI = 0) (hi : i < s.limit) : i ∈ (s.allocL (s.limit + 1)).log := by
  rw [allocL, log_bind, innerAllocL, log_bind]
  refine List.mem_append_left _ (List.mem_append_left _ (mem_log_scanL ?_ (hlast ▸ Nat.zero_le i) ?_))
  · show s.highestAddr / 4096 - s.lastI + 0 < s.highestAddr / 4096 + 1
    omega
  · show i < s.lastI + (s.highestAddr / 4096 - s.lastI)
    unfold limit at hi
    omega

end

-- ---------------------------------------------------------------------------
-- Runs
-- ---------------------------------------------------------------------------

structure Usage where
  pmm : PhysicalMemory
  blocks : List Block

/-- One call. Only what `alloc` returned is freed, though perhaps twice. -/
def Usage.call (st : Usage) : PmmCall → Option Usage
  | .alloc size => (st.pmm.alloc size).map fun r => ⟨r.2, ⟨r.1, size⟩ :: st.blocks⟩
  | .free ptr size => if ⟨ptr, size⟩ ∈ st.blocks then some ⟨st.pmm.free ptr size, st.blocks⟩ else none

structure Usage.Inside (P : Pool) (st : Usage) : Prop where
  bitmap : st.pmm.bitmap = P.bitmap
  highestAddr : st.pmm.highestAddr = P.highestAddr
  cursor : st.pmm.lastI ≤ P.limit
  bits : ∀ i < P.limit, P.bitmap.get st.pmm.ram i = false → i ∈ P.avail
  blocks : ∀ b ∈ st.blocks, 4096 ∣ b.ptr ∧ b.pages ⊆ P.avail

section
variable {P : Pool} {st st' : Usage} {c : PmmCall} {n p : Nat}

theorem Usage.Inside.limit (h : st.Inside P) : st.pmm.limit = P.limit := by
  rw [PhysicalMemory.limit, h.highestAddr, Pool.limit]

theorem Usage.Inside.alloc {s' : PhysicalMemory} (h : st.Inside P)
    (ha : st.pmm.alloc n = some (p, s')) :
    Usage.Inside P ⟨s', ⟨p, n⟩ :: st.blocks⟩ := by
  have hn : 1 ≤ n := Nat.one_le_iff_ne_zero.mpr fun h0 => by
    rw [h0, alloc_zero] at ha
    exact absurd ha (by simp)
  obtain ⟨page, rfl, hle, hclear, hcase⟩ :=
    alloc_cases ha hn (h.highestAddr ▸ P.inSpace) (h.limit ▸ h.cursor)
  rw [h.limit] at hle
  rw [h.bitmap] at hclear
  have hin : span page n ⊆ P.avail := by
    intro i hi
    rw [mem_span] at hi
    exact h.bits i (by omega) (hclear i hi.1 hi.2)
  have hbits : ∀ ram, Set.EqOn ram (st.pmm.bitmap.setRange st.pmm.ram page n true)
      (P.bitmap.bytes P.limit) → ∀ i < P.limit, P.bitmap.get ram i = false → i ∈ P.avail := by
    intro ram hram i hi hbit
    rw [Bitmap.get_congr hram hi, h.bitmap, Bitmap.get_setRange] at hbit
    split_ifs at hbit
    exact h.bits i hi hbit
  have hblocks : ∀ b ∈ (⟨4096 * page, n⟩ : Block) :: st.blocks, 4096 ∣ b.ptr ∧ b.pages ⊆ P.avail := by
    intro b hb
    rcases List.mem_cons.mp hb with rfl | hb
    · refine ⟨Nat.dvd_mul_right _ _, ?_⟩
      rwa [Block.pages, Nat.mul_div_cancel_left _ (by decide)]
    · exact h.blocks b hb
  rcases hcase with ⟨-, rfl⟩ | ⟨-, -, rfl⟩
  · exact ⟨h.bitmap, h.highestAddr, hle, hbits _ fun _ _ => rfl, hblocks⟩
  · refine ⟨h.bitmap, h.highestAddr, hle, hbits _ fun a ha => ?_, hblocks⟩
    exact memset_eqOn _ _ _ _ (Set.disjoint_right.mp (P.block_disjoint_bytes hin) ha)

theorem Usage.Inside.free (h : st.Inside P) (hb : ⟨p, n⟩ ∈ st.blocks) :
    Usage.Inside P ⟨st.pmm.free p n, st.blocks⟩ := by
  refine ⟨h.bitmap, h.highestAddr, ?_, fun i hi hbit => ?_, h.blocks⟩
  · have hcursor := h.cursor
    simp only [PhysicalMemory.free]
    split <;> omega
  · simp only [PhysicalMemory.free, h.bitmap, Bitmap.get_setRange] at hbit
    split_ifs at hbit with hin
    · exact (h.blocks _ hb).2 hin
    · exact h.bits i hi hbit

theorem Usage.Inside.call (h : st.Inside P) (hc : Steps Usage.call st c st') : st'.Inside P := by
  cases c with
  | alloc size =>
    obtain ⟨⟨p, s'⟩, ha, rfl⟩ := Option.map_eq_some_iff.mp hc
    exact h.alloc ha
  | free ptr size =>
    simp only [Steps, Usage.call, Option.ite_none_right_eq_some, Option.some.injEq] at hc
    obtain ⟨hmem, rfl⟩ := hc
    exact h.free hmem

theorem Usage.Inside.apart (h : st.Inside P) {b : Block} (hb : b ∈ st.blocks) :
    Disjoint (span b.ptr (4096 * b.size)) (span P.bitmap.buffer P.size) := by
  obtain ⟨⟨page, hpage⟩, hin⟩ := h.blocks b hb
  obtain ⟨q, hq⟩ := P.buffer_dvd
  obtain ⟨r, hr⟩ := P.size_dvd
  rw [Set.disjoint_left]
  intro a ha hbitmap
  rw [mem_span] at ha hbitmap
  have hmem : a / 4096 ∈ b.pages := by
    rw [Block.pages, mem_span]
    omega
  exact (hin hmem).2.2 ⟨by omega, by omega⟩

end

-- ---------------------------------------------------------------------------
-- Which memory maps
-- ---------------------------------------------------------------------------

/-- The bitmap is carved out of a usable entry, and every bit that is used,
then or in any later call, is in it. -/
structure BitmapFits (mmap : List LimineMemmapEntry) (ram : Mem) (s : PhysicalMemory)
    (size : Nat) : Prop where
  region : ∃ l e r, mmap = l ++ e :: r ∧ e.type = limineMemmapUsable ∧ size ≤ e.length ∧
    s.bitmap.buffer = e.base ∧
    s.mmap = l ++ { e with length := e.length - size, base := u64 (e.base + size) } :: r
  loop : Uses (fun i => i / 8 < size) (initializeMemoryL mmap ram)
  alloc : ∀ calls st, Run (Steps Usage.call) ⟨s, []⟩ calls st →
    ∀ n, Uses (fun i => i / 8 < size) (st.pmm.allocL n)
  free : ∀ calls st, Run (Steps Usage.call) ⟨s, []⟩ calls st → ∀ b ∈ st.blocks,
    Uses (fun i => i / 8 < size) (st.pmm.freeL b.ptr b.size)
  apart : ∀ calls st, Run (Steps Usage.call) ⟨s, []⟩ calls st → ∀ b ∈ st.blocks,
    Disjoint (span b.ptr (4096 * b.size)) (span s.bitmap.buffer size)

def highestUsable (mmap : List LimineMemmapEntry) : Nat :=
  mmap.foldl (fun high e => if e.type = limineMemmapUsable then max high (u64 (e.base + e.length))
    else high) 0

/-- An entry is large enough; the division by 8 drops no page; and where an
entry ends with the address space, so that its end is 0, the bitmap takes all
of it or covers the whole space. -/
structure Fits (mmap : List LimineMemmapEntry) : Prop where
  entry : ∃ e ∈ mmap, e.type = limineMemmapUsable ∧ bitmapSize (highestUsable mmap) ≤ e.length
  whole : highestUsable mmap / 4096 % 32768 = 0 ∨ 8 ≤ highestUsable mmap / 4096 % 32768
  top : ∀ e ∈ mmap, e.type = limineMemmapUsable → 0 < e.length → e.base + e.length = 2 ^ 64 →
    (firstFit (bitmapSize (highestUsable mmap)) mmap = some e ∧
      e.length = bitmapSize (highestUsable mmap)) ∨
      bitmapSize (highestUsable mmap) = 2 ^ 49

section
variable {mmap : List LimineMemmapEntry} {ram : Mem} {s : PhysicalMemory} {e f : LimineMemmapEntry}
  {size high : Nat}

theorem foldl_countEntry_highestAddr : (mmap.foldl countEntry s).highestAddr = mmap.foldl
    (fun high e => if e.type = limineMemmapUsable then max high (u64 (e.base + e.length)) else high)
      s.highestAddr := by
  induction mmap generalizing s with
  | nil => rfl
  | cons e mmap ih =>
    rw [List.foldl_cons, List.foldl_cons, ih, countEntry]
    congr 1
    split
    · simp only
      split <;> omega
    · rfl

theorem initializeMemory_highestAddr (mmap : List LimineMemmapEntry) (ram : Mem) :
    (initializeMemory mmap ram).highestAddr = highestUsable mmap := by
  rw [initializeMemory, initializeWith_highestAddr, foldl_countEntry_highestAddr, highestUsable]

theorem initializeMemory_of_carve {base : Nat} {mmap' : List LimineMemmapEntry}
    (h : carve (bitmapSize (highestUsable mmap)) mmap = some (base, mmap')) :
    (initializeMemory mmap ram).bitmap = ⟨base⟩ ∧ (initializeMemory mmap ram).mmap = mmap' ∧
      (initializeMemory mmap ram).lastI = 0 := by
  obtain ⟨high, hcount, -⟩ := foldl_countEntry { ram, mmap } mmap
  have hhigh : high = highestUsable mmap := by
    rw [← initializeMemory_highestAddr mmap ram, initializeMemory, initializeWith_highestAddr, hcount]
  rw [initializeMemory, initializeWith, hcount]
  simp only [hhigh, placeBitmap, h, and_self]

theorem bitmapSize_eq (h : high < 2 ^ 64) :
    bitmapSize high = (high / 4096 / 8 + 4095) / 4096 * 4096 := by
  have hinner : u64 (high / 4096 / 8 + (4096 - 1)) = high / 4096 / 8 + 4095 := u64_of_lt (by omega)
  rw [bitmapSize, alignUp, divRoundup, hinner]
  exact u64_of_lt (by omega)

/-- The bitmap has a bit for every page exactly when the division by 8 drops
none or the rounding up makes room for it. -/
theorem covers_iff (h : high < 2 ^ 64) :
    high / 4096 ≤ 8 * bitmapSize high ↔ high / 4096 % 32768 = 0 ∨ 8 ≤ high / 4096 % 32768 := by
  rw [bitmapSize_eq h]
  omega

theorem eq_of_covers (hm : MapOk mmap) (he : e ∈ mmap) (hf : f ∈ mmap) (hcov : e.Covers i)
    (hcov' : f.Covers i) :
    e = f := by
  by_contra hne
  have hsymm : Std.Symm fun e f : LimineMemmapEntry => ∀ page, ¬(e.Covers page ∧ f.Covers page) :=
    ⟨fun _ _ h page hpage => h page hpage.symm⟩
  exact hm.disjoint.forall he hf hne i ⟨hcov, hcov'⟩

theorem mem_log_initializeMemoryL_iff (ram : Mem) (hm : MapOk mmap)
    (hsize : size = bitmapSize (highestUsable mmap))
    (hdvd : 4096 ∣ size) (hfit : ∃ e ∈ mmap, e.type = limineMemmapUsable ∧ size ≤ e.length) :
    ∃ l e r, mmap = l ++ e :: r ∧ firstFit size mmap = some e ∧ e.type = limineMemmapUsable ∧
      size ≤ e.length ∧ (initializeMemory mmap ram).bitmap.buffer = e.base ∧
      (initializeMemory mmap ram).mmap = l ++
        { e with length := e.length - size, base := u64 (e.base + size) } :: r ∧
      ∀ i, i ∈ (initializeMemoryL mmap ram).log ↔
        UsablePage mmap i ∧ ¬(e.base ≤ 4096 * i ∧ 4096 * i < e.base + size) := by
  have hhigh : (initializeMemory mmap ram).highestAddr = highestUsable mmap :=
    initializeMemory_highestAddr ..
  obtain ⟨l, e, r, rfl, hfirst, hu, hle, hs⟩ := initializeWith_eq (s := initializeMemory mmap ram) rfl
    (hhigh ▸ hsize) hfit
  have hmmap := congrArg PhysicalMemory.mmap hs
  refine ⟨l, e, r, rfl, hfirst, hu, hle, congrArg (fun s => s.bitmap.buffer) hs, hmmap, fun i => ?_⟩
  rw [mem_log_initializeMemoryL, hmmap, ← usablePage_carved hm hu hle, UsablePage]
  refine exists_congr fun f => and_congr_right fun hf => ?_
  exact mem_clearedBits (fun hfu => (mapOk_carved hm hu hle hdvd f hf hfu).1) fun hfu =>
    (mapOk_carved hm hu hle hdvd f hf hfu).2

theorem highestUsable_lt : highestUsable mmap < 2 ^ 64 := by
  obtain ⟨high, hcount, -, hlt, -⟩ := foldl_countEntry { ram := fun _ => 0, mmap } mmap
  have hhigh : (initializeMemory mmap fun _ => 0).highestAddr = high := by
    rw [initializeMemory, initializeWith_highestAddr, hcount]
  rw [← initializeMemory_highestAddr mmap fun _ => 0, hhigh]
  exact hlt (show 0 < 2 ^ 64 by decide)

theorem Fits.bitmapFits (hm : MapOk mmap) (h : Fits mmap) :
    BitmapFits mmap ram (initializeMemory mmap ram) (bitmapSize (highestUsable mmap)) := by
  have hlt : highestUsable mmap < 2 ^ 64 := highestUsable_lt
  have hhigh : (initializeMemory mmap ram).highestAddr = highestUsable mmap :=
    initializeMemory_highestAddr ..
  have hcovers := (covers_iff hlt).mpr h.whole
  generalize hsize : bitmapSize (highestUsable mmap) = size at hcovers ⊢
  have hdvd : 4096 ∣ size := ⟨_, hsize ▸ (bitmapSize_eq hlt).trans (Nat.mul_comm ..)⟩
  have hfit := h.entry
  rw [hsize] at hfit
  obtain ⟨P, hbitmap, hPsize, hPhigh, -, hr⟩ :=
    initializeWith_refines (s := initializeMemory mmap ram) hm rfl
    (hhigh ▸ hsize.symm) hdvd (hhigh ▸ hcovers) hfit
  obtain ⟨-, -, -, -, -, htop, -, -⟩ :=
    initializeWith_spec (s := initializeMemory mmap ram) hm rfl (hhigh ▸ hsize.symm) hdvd hfit
  obtain ⟨l, e, r, hmmap, hfirst, hu, hle, hbuffer, hedited, hlog⟩ :=
    mem_log_initializeMemoryL_iff ram hm hsize.symm hdvd hfit
  have hlimit : P.limit ≤ 8 * size := by rw [Pool.limit, hPhigh, hhigh]; exact hcovers
  have hinside : ∀ calls st, Run (Steps Usage.call) ⟨initializeMemory mmap ram, []⟩ calls st →
      st.Inside P := by
    intro calls st hrun
    refine hrun.invariant (I := Usage.Inside P)
      ⟨hr.bitmap, hr.highestAddr, hr.cursor, fun i hi hbit => ?_, ?_⟩
      fun h hc => h.call hc
    · exact ((hr.bits i hi).mp hbit).1
    · simp
  refine ⟨⟨l, e, r, hmmap, hu, hle, hbuffer, hedited⟩, fun i hi => ?_, fun calls st hrun n => ?_,
    fun calls st hrun b hb => ?_, fun calls st hrun b hb => ?_⟩
  · obtain ⟨⟨f, hf, hcov⟩, hnot⟩ := (hlog i).mp hi
    obtain ⟨hfu, h₁, h₂⟩ := hcov
    have hspace := hm.inSpace f hf hfu
    obtain ⟨⟨base, hb⟩, ⟨len, hl⟩⟩ := hm.aligned f hf hfu
    by_cases hend : f.base + f.length = 2 ^ 64
    · -- the end of this entry is 0 to the first loop
      rcases h.top f hf hfu (by omega) hend with ⟨hfirst', hlen⟩ | hall
      · rw [hsize] at hfirst' hlen
        obtain rfl := Option.some.inj (hfirst.symm.trans hfirst')
        omega
      · rw [hsize] at hall
        omega
    · have hhighest := htop f hf hfu
      rw [u64_of_lt (by omega), hhigh] at hhighest
      omega
  · have hin := hinside calls st hrun
    refine (allocL_uses (hin.limit ▸ hin.cursor)).mono fun i hi => ?_
    rw [hin.limit] at hi
    omega
  · have hin := hinside calls st hrun
    refine freeL_uses.mono fun i hi => ?_
    have hlt := ((hin.blocks b hb).2 hi).1
    omega
  · rw [← hbitmap, ← hPsize]
    exact (hinside calls st hrun).apart hb

theorem BitmapFits.fits (hm : MapOk mmap)
    (h : BitmapFits mmap ram (initializeMemory mmap ram) (bitmapSize (highestUsable mmap))) :
    Fits mmap := by
  have hlt : highestUsable mmap < 2 ^ 64 := highestUsable_lt
  have hhigh : (initializeMemory mmap ram).highestAddr = highestUsable mmap :=
    initializeMemory_highestAddr ..
  generalize hsize : bitmapSize (highestUsable mmap) = size at h
  have hsize' := (bitmapSize_eq hlt).symm.trans hsize
  have hdvd : 4096 ∣ size := ⟨_, hsize'.symm.trans (Nat.mul_comm ..)⟩
  have hfit : ∃ e ∈ mmap, e.type = limineMemmapUsable ∧ size ≤ e.length := by
    obtain ⟨l, e, r, rfl, hu, hle, -, -⟩ := h.region
    exact ⟨e, by simp, hu, hle⟩
  obtain ⟨hlast, -, -, -, -, -, -, -⟩ :=
    initializeWith_spec (s := initializeMemory mmap ram) hm rfl (hhigh ▸ hsize.symm) hdvd hfit
  obtain ⟨l, e, r, hmmap, hfirst, hu, hle, -, -, hlog⟩ :=
    mem_log_initializeMemoryL_iff ram hm hsize.symm hdvd hfit
  have hspace := hm.inSpace e (by simp [hmmap]) hu
  obtain ⟨⟨base, hb⟩, ⟨len, hl⟩⟩ := hm.aligned e (by simp [hmmap]) hu
  refine ⟨hsize ▸ hfit, (covers_iff hlt).mp ?_, fun f hf hfu hpos hend => ?_⟩
  · -- the first call of all may look at every bit
    rw [hsize]
    by_contra hcovers
    have hi : highestUsable mmap / 4096 - 1 < (initializeMemory mmap ram).limit := by
      rw [limit, hhigh]
      omega
    have hused := h.alloc [] _ .nil _ _ (mem_log_allocL hlast hi)
    simp only at hused
    omega
  · rw [hsize]
    obtain ⟨⟨fbase, hfb⟩, ⟨flen, hfl⟩⟩ := hm.aligned f hf hfu
    have hcov : f.Covers (2 ^ 52 - 1) := ⟨hfu, by omega, by omega⟩
    by_cases hgiven : e.base ≤ 4096 * (2 ^ 52 - 1) ∧ 4096 * (2 ^ 52 - 1) < e.base + size
    · have hcov' : e.Covers (2 ^ 52 - 1) := ⟨hu, hgiven.1, by omega⟩
      obtain rfl := eq_of_covers hm (by simp [hmmap]) hf hcov' hcov
      refine .inl ⟨hfirst, ?_⟩
      omega
    · have hused := h.loop _ ((hlog _).mpr ⟨⟨f, hf, hcov⟩, hgiven⟩)
      simp only at hused
      exact .inr (by omega)

/-- Every bit that is ever used is in the bytes set aside for it exactly for
the memory maps of `Fits`. -/
theorem bitmapFits_iff (hm : MapOk mmap) :
    BitmapFits mmap ram (initializeMemory mmap ram)
      (bitmapSize (initializeMemory mmap ram).highestAddr) ↔ Fits mmap := by
  rw [initializeMemory_highestAddr]
  constructor
  · intro h
    exact h.fits hm
  · intro h
    exact h.bitmapFits hm

/-- Where the bitmap fits, `Initialize` leaves it apart from the pages it frees. -/
theorem Fits.sane (hm : MapOk mmap) (h : Fits mmap) (hspace : highestUsable mmap ≤ 2 ^ 63) :
    Sane ((initializeMemory mmap ram).bitmap.bytes (initializeMemory mmap ram).limit)
      (initializeMemory mmap ram) := by
  have hlt : highestUsable mmap < 2 ^ 64 := highestUsable_lt
  have hhigh : (initializeMemory mmap ram).highestAddr = highestUsable mmap :=
    initializeMemory_highestAddr ..
  have hdvd : 4096 ∣ bitmapSize (highestUsable mmap) := ⟨_, (bitmapSize_eq hlt).trans (Nat.mul_comm ..)⟩
  obtain ⟨P, hbitmap, -, hPhigh, -, hr⟩ :=
    initializeWith_refines (s := initializeMemory mmap ram) hm rfl
    (congrArg bitmapSize hhigh).symm hdvd (hhigh ▸ (covers_iff hlt).mpr h.whole) h.entry
  have hlimit : P.limit = (initializeMemory mmap ram).limit := by rw [Pool.limit, hPhigh, limit]
  refine ⟨rfl, hhigh ▸ hspace, hlimit ▸ hr.cursor, fun x hx hown => ?_⟩
  obtain ⟨hx, hbit⟩ := hx
  rw [← hlimit] at hx
  rw [← hbitmap] at hbit
  have hin : span (x / 4096) 1 ⊆ P.avail := by
    intro i hi
    rw [mem_span] at hi
    obtain rfl : i = x / 4096 := by omega
    exact ((hr.bits _ hx).mp hbit).1
  rw [← hbitmap, ← hlimit] at hown
  refine Set.disjoint_left.mp (P.block_disjoint_bytes hin) ?_ hown
  rw [mem_span]
  omega

end

theorem bitmapFits_iff_sixteenPages :
    BitmapFits sixteenPages (fun _ => 0) (initializeMemory sixteenPages fun _ => 0)
    (bitmapSize (initializeMemory sixteenPages fun _ => 0).highestAddr) :=
  (bitmapFits_iff sixteenPages_ok).mpr ⟨by decide, by decide, by decide⟩

/-- 128 MiB and one page: the bitmap is one page, which has no bit for the last. -/
def onePageOver : List LimineMemmapEntry := [⟨0x1000, 0x8000000, limineMemmapUsable⟩]

theorem onePageOver_ok : MapOk onePageOver where
  aligned := by simp only [onePageOver, List.mem_singleton]; rintro e rfl -; decide
  inSpace := by simp only [onePageOver, List.mem_singleton]; rintro e rfl -; decide
  disjoint := by simp [onePageOver]

theorem onePageOver_init :
    (initializeMemory onePageOver fun _ => 0).mmap = [⟨0x2000, 0x7fff000, limineMemmapUsable⟩] ∧
    bitmapSize (initializeMemory onePageOver fun _ => 0).highestAddr = 4096 := by
  have hcarve : carve (bitmapSize (highestUsable onePageOver)) onePageOver =
      some (0x1000, [⟨0x2000, 0x7fff000, limineMemmapUsable⟩]) := by decide
  constructor
  · exact (initializeMemory_of_carve hcarve).2.1
  · rw [initializeMemory_highestAddr]
    decide

/-- The bit of the last page is in the first byte past the bitmap. -/
theorem onePageOver_not_bitmapFits : MapOk onePageOver ∧
    ¬BitmapFits onePageOver (fun _ => 0) (initializeMemory onePageOver fun _ => 0)
      (bitmapSize (initializeMemory onePageOver fun _ => 0).highestAddr) := by
  obtain ⟨hmmap, hsize⟩ := onePageOver_init
  refine ⟨onePageOver_ok, fun h => ?_⟩
  have hused : 32768 ∈ (initializeMemoryL onePageOver fun _ => 0).log := by
    rw [mem_log_initializeMemoryL, hmmap]
    exact ⟨_, List.mem_singleton_self _, rfl, 32766, by decide, by decide⟩
  have hlt := h.loop _ hused
  rw [hsize] at hlt
  exact absurd hlt (by decide)

end PhysicalMemory

end LimineOS
