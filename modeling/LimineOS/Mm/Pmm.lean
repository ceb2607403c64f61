import LimineOS.Mm.Bitmap

/-!
# The physical page allocator

`PhysicalMemory` holds the allocator's globals together with the RAM it
hands out and the firmware memory map `initializeMemory` edits. `alloc` is `none`
where the source prints "Out of memory" and halts; a returned address is
never null.

`scan_some` and `scan_none` describe the one loop of `inner_alloc`;
`alloc_cases` says everything a successful `alloc` can have done.
-/

namespace LimineOS

open ByteMemory

structure LimineMemmapEntry where
  base : Nat
  length : Nat
  type : Nat
  deriving DecidableEq, Repr

def limineMemmapUsable : Nat := 0
def limineMemmapFramebuffer : Nat := 7

def divRoundup (a b : Nat) : Nat := u64 (a + (b - 1)) / b

def alignUp (a b : Nat) : Nat := u64 (divRoundup a b * b)

structure PhysicalMemory where
  ram : Mem
  mmap : List LimineMemmapEntry
  bitmap : Bitmap := ⟨0⟩
  highestAddr : Nat := 0
  lastI : Nat := 0
  usedRam : Nat := 0
  freeRam : Nat := 0

namespace PhysicalMemory

-- ---------------------------------------------------------------------------
-- Initialize
-- ---------------------------------------------------------------------------

/-- First loop: add up the usable lengths and find the highest usable address. -/
def countEntry (s : PhysicalMemory) (e : LimineMemmapEntry) : PhysicalMemory :=
  if e.type = limineMemmapUsable then
    let top := u64 (e.base + e.length)
    { s with
      freeRam := u64 (s.freeRam + e.length)
      highestAddr := if top > s.highestAddr then top else s.highestAddr }
  else s

def bitmapSize (highestAddr : Nat) : Nat := alignUp (highestAddr / 4096 / 8) 4096

/-- Second loop: the first usable entry of at least `size` bytes gives up its
lowest `size` bytes. Returns where they start and the edited map. -/
def carve (size : Nat) : List LimineMemmapEntry → Option (Nat × List LimineMemmapEntry)
  | [] => none
  | e :: es =>
    if e.type ≠ limineMemmapUsable then (carve size es).map fun r => (r.1, e :: r.2)
    else if e.length ≥ size then
      some (e.base, { e with length := e.length - size, base := u64 (e.base + size) } :: es)
    else (carve size es).map fun r => (r.1, e :: r.2)

def placeBitmap (s : PhysicalMemory) (size : Nat) : PhysicalMemory :=
  match carve size s.mmap with
  | none => s
  | some (base, mmap) =>
    { s with
      bitmap := ⟨base⟩
      ram := memset s.ram base 0xFF size
      mmap := mmap
      freeRam := subU64 s.freeRam size }

/-- Third loop, one entry: `for (t = 0; t < length; t += 4096)`. -/
def freeEntry (b : Bitmap) (ram : Mem) (e : LimineMemmapEntry) : Mem :=
  if e.type = limineMemmapUsable then
    (List.range ((e.length + 4095) / 4096)).foldl
      (fun ram k => b.set ram (u64 (e.base + 4096 * k) / 4096) false) ram
  else ram

/-- `PhysicalMemory::Initialize` with the size of the bitmap left open. -/
def initializeWith (sizeOf : Nat → Nat) (mmap : List LimineMemmapEntry) (ram : Mem) : PhysicalMemory :=
  let s := mmap.foldl countEntry { ram, mmap }
  let s := s.placeBitmap (sizeOf s.highestAddr)
  { s with ram := s.mmap.foldl (freeEntry s.bitmap) s.ram }

def initializeMemory : List LimineMemmapEntry → Mem → PhysicalMemory := initializeWith bitmapSize

-- ---------------------------------------------------------------------------
-- alloc and free
-- ---------------------------------------------------------------------------

/-- The loop of `inner_alloc` with `left` cells below its limit and a run of
`p` clear bits behind the cursor: the page found, if any, and the cursor. -/
def scan (b : Bitmap) (ram : Mem) (count : Nat) : Nat → Nat → Nat → Option Nat × Nat
  | 0, lastI, _ => (none, lastI)
  | left + 1, lastI, p =>
    if !b.get ram lastI then
      if p + 1 = count then (some (lastI + 1 - count), lastI + 1)
      else scan b ram count left (lastI + 1) (p + 1)
    else scan b ram count left (lastI + 1) 0

/-- The result 0 is the null pointer, also where page 0 itself was found. -/
def innerAlloc (s : PhysicalMemory) (count limit : Nat) : Nat × PhysicalMemory :=
  match scan s.bitmap s.ram count (limit - s.lastI) s.lastI 0 with
  | (none, lastI) => (0, { s with lastI })
  | (some page, lastI) =>
    (u64 (page * 4096), { s with lastI, ram := s.bitmap.setRange s.ram page count true })

def alloc (s : PhysicalMemory) (size : Nat) : Option (Nat × PhysicalMemory) :=
  let i := s.lastI
  let (ret, s) := s.innerAlloc size (s.highestAddr / 0x1000)
  if ret = 0 then
    let (ret, s) := { s with lastI := 0 }.innerAlloc size i
    if ret = 0 then none
    else
      some (ret, { s with
        ram := memset s.ram ret 0 (u64 (size * 4096))
        usedRam := u64 (s.usedRam + size * 0x1000)
        freeRam := subU64 s.freeRam (size * 0x1000) })
  else some (ret, s)

def free (s : PhysicalMemory) (ptr size : Nat) : PhysicalMemory :=
  let page := ptr / 0x1000
  { s with
    ram := s.bitmap.setRange s.ram page size false
    lastI := if s.lastI > page then page else s.lastI
    usedRam := subU64 s.usedRam (size * 0x1000)
    freeRam := u64 (s.freeRam + size * 0x1000) }

theorem free_usedRam (s : PhysicalMemory) (ptr size : Nat) :
    (s.free ptr size).usedRam = subU64 s.usedRam (size * 0x1000) := rfl

theorem free_freeRam (s : PhysicalMemory) (ptr size : Nat) :
    (s.free ptr size).freeRam = u64 (s.freeRam + size * 0x1000) := rfl

-- ---------------------------------------------------------------------------
-- What the scan finds
-- ---------------------------------------------------------------------------

section
variable {b : Bitmap} {ram : Mem} {first count left lastI p page cursor : Nat}

theorem scan_set (hb : b.get ram lastI = true) :
    scan b ram count (left + 1) lastI p = scan b ram count left (lastI + 1) 0 := by
  rw [scan, hb]
  rfl

theorem scan_clear (hb : b.get ram lastI = false) : scan b ram count (left + 1) lastI p =
    if p + 1 = count then (some (lastI + 1 - count), lastI + 1)
      else scan b ram count left (lastI + 1) (p + 1) := by
  rw [scan, hb]
  rfl

def ClearRun (b : Bitmap) (ram : Mem) (first count : Nat) : Prop :=
  ∀ i, first ≤ i → i < first + count → b.get ram i = false

theorem ClearRun.snoc (h : ClearRun b ram first count) (hb : b.get ram (first + count) = false) :
    ClearRun b ram first (count + 1) := by
  intro i h₁ h₂
  by_cases hi : i = first + count
  · exact hi ▸ hb
  · exact h i h₁ (by omega)

/-- The scan moves right only, and a page it finds starts a clear run that
ends at the new cursor. -/
theorem scan_some (h : scan b ram count left lastI p = (some page, cursor)) (hp : p < count)
    (hle : p ≤ lastI) (hrun : ClearRun b ram (lastI - p) p) :
    lastI - p ≤ page ∧ page + count = cursor ∧ cursor ≤ lastI + left ∧ ClearRun b ram page count := by
  induction left generalizing lastI p with
  | zero => simp [scan] at h
  | succ left ih =>
    cases hb : b.get ram lastI with
    | true =>
      rw [scan_set hb] at h
      obtain ⟨h₁, h₂, h₃, h₄⟩ := ih h (by omega) (by omega) (fun i _ _ => by omega)
      exact ⟨by omega, h₂, by omega, h₄⟩
    | false =>
      have hrun' : ClearRun b ram (lastI - p) (p + 1) :=
        hrun.snoc (by rwa [Nat.sub_add_cancel hle])
      rw [scan_clear hb] at h
      split at h
      · rename_i hc
        simp only [Prod.mk.injEq, Option.some.injEq] at h
        obtain ⟨rfl, rfl⟩ := h
        refine ⟨by omega, by omega, by omega, ?_⟩
        rw [show lastI + 1 - count = lastI - p by omega, ← hc]
        exact hrun'
      · have hsub : lastI + 1 - (p + 1) = lastI - p := by omega
        obtain ⟨h₁, h₂, h₃, h₄⟩ := ih h (by omega) (by omega) (by rwa [hsub])
        exact ⟨by omega, h₂, by omega, h₄⟩

/-- A scan that finds nothing has passed over no clear run of `count` pages. -/
theorem scan_none (h : scan b ram count left lastI p = (none, cursor)) (hp : p < count)
    (hle : p ≤ lastI) :
    cursor = lastI + left ∧
      ∀ first, lastI - p ≤ first → first + count ≤ lastI + left → ¬ClearRun b ram first count := by
  induction left generalizing lastI p with
  | zero =>
    simp only [scan, Prod.mk.injEq, true_and] at h
    exact ⟨by omega, fun first h₁ h₂ => by omega⟩
  | succ left ih =>
    cases hb : b.get ram lastI with
    | true =>
      rw [scan_set hb] at h
      obtain ⟨hc, hn⟩ := ih h (by omega) (by omega)
      refine ⟨by omega, fun first h₁ h₂ hr => ?_⟩
      by_cases hf : first ≤ lastI
      · -- the run would contain the set bit at the cursor
        have := hr lastI hf (by omega)
        simp [hb] at this
      · exact hn first (by omega) (by omega) hr
    | false =>
      rw [scan_clear hb] at h
      split at h
      · simp at h
      · obtain ⟨hc, hn⟩ := ih h (by omega) (by omega)
        refine ⟨by omega, fun first h₁ h₂ => ?_⟩
        exact hn first (by omega) (by omega)

theorem scan_minimal (h : scan b ram count left lastI p = (some page, cursor)) (hp : p < count)
    (hle : p ≤ lastI) :
    ∀ first, lastI - p ≤ first → first < page → ¬ClearRun b ram first count := by
  induction left generalizing lastI p with
  | zero => simp [scan] at h
  | succ left ih =>
    cases hb : b.get ram lastI with
    | true =>
      rw [scan_set hb] at h
      intro first h₁ h₂ hr
      by_cases hf : first ≤ lastI
      · have := hr lastI hf (by omega)
        simp [hb] at this
      · exact ih h (by omega) (by omega) first (by omega) h₂ hr
    | false =>
      rw [scan_clear hb] at h
      split at h
      · simp only [Prod.mk.injEq, Option.some.injEq] at h
        intro first h₁ h₂
        omega
      · intro first h₁ h₂
        exact ih h (by omega) (by omega) first (by omega) h₂

end

-- ---------------------------------------------------------------------------
-- What a successful alloc has done
-- ---------------------------------------------------------------------------

def limit (s : PhysicalMemory) : Nat := s.highestAddr / 4096

structure FirstFit (s : PhysicalMemory) (size page : Nat) : Prop where
  ge : s.lastI ≤ page
  le : page + size ≤ s.limit
  clear : ClearRun s.bitmap s.ram page size
  first : ∀ q, s.lastI ≤ q → q < page → ¬ClearRun s.bitmap s.ram q size

section
variable {s s' : PhysicalMemory} {count size p page lim : Nat}

theorem innerAlloc_found (h : s.innerAlloc count lim = (p, s')) (hp : p ≠ 0) (hc : 1 ≤ count) :
    ∃ page, p = u64 (page * 4096) ∧ s.lastI ≤ page ∧ page + count ≤ lim ∧
      ClearRun s.bitmap s.ram page count ∧
      (∀ first, s.lastI ≤ first → first < page → ¬ClearRun s.bitmap s.ram first count) ∧
      s' = { s with lastI := page + count, ram := s.bitmap.setRange s.ram page count true } := by
  unfold innerAlloc at h
  split at h
  · simp only [Prod.mk.injEq] at h
    exact absurd h.1.symm hp
  · rename_i page cursor hscan
    simp only [Prod.mk.injEq] at h
    obtain ⟨rfl, rfl⟩ := h
    obtain ⟨h₁, h₂, h₃, h₄⟩ := scan_some hscan (by omega) (by omega) (fun i _ _ => by omega)
    subst h₂
    exact ⟨page, rfl, by omega, by omega, h₄, scan_minimal hscan (by omega) (by omega), rfl⟩

theorem innerAlloc_null (h : s.innerAlloc count lim = (0, s')) (hc : 1 ≤ count) (hlim : lim < 2 ^ 52) :
    s.lastI = 0 ∨
      (s' = { s with lastI := s.lastI + (lim - s.lastI) } ∧
        ∀ first, s.lastI ≤ first → first + count ≤ lim → ¬ClearRun s.bitmap s.ram first count) := by
  unfold innerAlloc at h
  split at h
  · rename_i cursor hscan
    simp only [Prod.mk.injEq, true_and] at h
    obtain ⟨hcur, hnone⟩ := scan_none hscan (by omega) (by omega)
    subst hcur h
    exact .inr ⟨rfl, fun first h₁ h₂ => hnone first (by omega) (by omega)⟩
  · -- only page 0 has the null pointer for its address
    rename_i page cursor hscan
    simp only [Prod.mk.injEq] at h
    obtain ⟨h₁, h₂, h₃, -⟩ := scan_some hscan (by omega) (by omega) (fun i _ _ => by omega)
    rw [u64_of_lt (by omega)] at h
    exact .inl (by omega)

/-- A successful `alloc` marks one clear run below the limit. Either it is the
leftmost at or above the cursor; or no such run is there, and then the run lies
below the cursor, its memory is zeroed and the two counters move. -/
theorem alloc_cases (h : s.alloc size = some (p, s')) (hsize : 1 ≤ size) (hs : s.highestAddr < 2 ^ 64)
    (hlast : s.lastI ≤ s.limit) :
    ∃ page, p = 4096 * page ∧ page + size ≤ s.limit ∧ ClearRun s.bitmap s.ram page size ∧
      ((s.FirstFit size page ∧
          s' = { s with lastI := page + size, ram := s.bitmap.setRange s.ram page size true }) ∨
        ((∀ first, s.lastI ≤ first → first + size ≤ s.limit → ¬ClearRun s.bitmap s.ram first size) ∧
          page + size ≤ s.lastI ∧
          s' = { s with
            lastI := page + size
            ram := memset (s.bitmap.setRange s.ram page size true) (4096 * page) 0 (4096 * size)
            usedRam := u64 (s.usedRam + size * 0x1000)
            freeRam := subU64 s.freeRam (size * 0x1000) })) := by
  have hlim : s.limit < 2 ^ 52 := by unfold limit; omega
  unfold alloc at h
  rcases hfirst : s.innerAlloc size (s.highestAddr / 0x1000) with ⟨ret₁, s₁⟩
  simp only [hfirst] at h
  split at h
  · rename_i hnull
    subst hnull
    rcases hsecond : { s₁ with lastI := 0 }.innerAlloc size s.lastI with ⟨ret₂, s₂⟩
    simp only [hsecond] at h
    split at h
    · simp at h
    · rename_i hret
      simp only [Option.some.injEq, Prod.mk.injEq] at h
      obtain ⟨rfl, rfl⟩ := h
      obtain ⟨page, hp, _, hpage, hclear, -, rfl⟩ := innerAlloc_found hsecond hret hsize
      rcases innerAlloc_null hfirst hsize hlim with h0 | ⟨rfl, hnone⟩
      · -- from cursor 0 the second scan has nothing to look at
        omega
      · rw [u64_of_lt (by omega)] at hp
        subst hp
        refine ⟨page, by omega, by omega, hclear, .inr ⟨hnone, hpage, ?_⟩⟩
        rw [u64_of_lt (by omega), Nat.mul_comm page, Nat.mul_comm size 4096]
  · rename_i hret
    simp only [Option.some.injEq, Prod.mk.injEq] at h
    obtain ⟨rfl, rfl⟩ := h
    obtain ⟨page, hp, hge, hpage, hclear, hleftmost, rfl⟩ := innerAlloc_found hfirst hret hsize
    have hpage' : page + size ≤ s.limit := hpage
    rw [u64_of_lt (by omega)] at hp
    exact ⟨page, by omega, hpage', hclear, .inl ⟨⟨hge, hpage', hclear, hleftmost⟩, rfl⟩⟩

/-- `alloc` writes the bits below the limit and the block it returns, nothing
else, and it leaves the cursor at or below the limit. -/
theorem alloc_eqOn (h : s.alloc size = some (p, s')) (hsize : 1 ≤ size) (hs : s.highestAddr < 2 ^ 64)
    (hlast : s.lastI ≤ s.limit) :
    s'.bitmap = s.bitmap ∧ s'.highestAddr = s.highestAddr ∧ s'.lastI ≤ s'.limit ∧
      Set.EqOn s'.ram s.ram (s.bitmap.bytes s.limit ∪ span p (4096 * size))ᶜ := by
  obtain ⟨page, rfl, hle, -, hcase⟩ := alloc_cases h hsize hs hlast
  have hset := Bitmap.setRange_eqOn s.bitmap s.ram true hle
  rw [Set.compl_union]
  rcases hcase with ⟨-, rfl⟩ | ⟨-, -, rfl⟩
  · exact ⟨rfl, rfl, hle, fun a ha => hset ha.1⟩
  · exact ⟨rfl, rfl, hle, fun a ha => (memset_eqOn _ _ _ _ ha.2).trans (hset ha.1)⟩

theorem innerAlloc_ne_null (hrun : ClearRun s.bitmap s.ram page size) (hge : s.lastI ≤ page)
    (hlim : page + size ≤ lim)
    (hsize : 1 ≤ size) (hspace : lim < 2 ^ 52) (hzero : s.bitmap.get s.ram 0 = true) :
    (s.innerAlloc size lim).1 ≠ 0 := by
  unfold innerAlloc
  split
  · rename_i cursor hscan
    obtain ⟨-, hnone⟩ := scan_none hscan (by omega) (by omega)
    exact absurd hrun (hnone page (by omega) (by omega))
  · rename_i found cursor hscan
    obtain ⟨h₁, h₂, h₃, h₄⟩ := scan_some hscan (by omega) (by omega) (fun i _ _ => by omega)
    simp only
    rw [u64_of_lt (by omega)]
    intro hfound
    have := h₄ 0 (by omega) (by omega)
    simp [hzero] at this

theorem alloc_isSome (hrun : ClearRun s.bitmap s.ram page size) (hge : s.lastI ≤ page)
    (hlim : page + size ≤ s.limit) (hsize : 1 ≤ size) (hs : s.highestAddr < 2 ^ 64)
    (hzero : s.bitmap.get s.ram 0 = true) : ∃ p s', s.alloc size = some (p, s') := by
  have hlimit : s.limit < 2 ^ 52 := by unfold limit; omega
  have hret := innerAlloc_ne_null hrun hge hlim hsize hlimit hzero
  rcases hfirst : s.innerAlloc size (s.highestAddr / 0x1000) with ⟨ret, s₁⟩
  rw [limit, hfirst] at hret
  exact ⟨ret, s₁, by simp [alloc, hfirst, hret]⟩

theorem alloc_isSome_below (hrun : ClearRun s.bitmap s.ram page size) (hlim : page + size ≤ s.lastI)
    (hsize : 1 ≤ size) (hs : s.highestAddr < 2 ^ 64) (hlast : s.lastI ≤ s.limit)
    (hzero : s.bitmap.get s.ram 0 = true) : ∃ p s', s.alloc size = some (p, s') := by
  have hlimit : s.limit < 2 ^ 52 := by unfold limit; omega
  rcases hfirst : s.innerAlloc size (s.highestAddr / 0x1000) with ⟨ret, s₁⟩
  by_cases hret : ret = 0
  · subst hret
    rcases innerAlloc_null hfirst hsize hlimit with h0 | ⟨rfl, -⟩
    · omega
    · have hsecond := innerAlloc_ne_null (s := { s with lastI := 0 }) hrun (Nat.zero_le page) hlim
        hsize (by omega) hzero
      rcases hfound : innerAlloc { s with lastI := 0 } size s.lastI with ⟨ret, s₂⟩
      rw [hfound] at hsecond
      have hsome : (s.alloc size).isSome := by simp [alloc, hfirst, hfound, hsecond]
      obtain ⟨⟨p, s'⟩, halloc⟩ := Option.isSome_iff_exists.mp hsome
      exact ⟨p, s', halloc⟩
  · exact ⟨ret, s₁, by simp [alloc, hfirst, hret]⟩

theorem scan_zero {b : Bitmap} {ram : Mem} {left lastI p : Nat} :
    (scan b ram 0 left lastI p).1 = none := by
  induction left generalizing lastI p with
  | zero => rfl
  | succ left ih =>
    cases hb : b.get ram lastI with
    | true => rw [scan_set hb, ih]
    | false => rw [scan_clear hb, if_neg (Nat.succ_ne_zero p), ih]

theorem alloc_zero (s : PhysicalMemory) : s.alloc 0 = none := by
  have hnull : ∀ (s : PhysicalMemory) lim, (s.innerAlloc 0 lim).1 = 0 := by
    intro s lim
    have hscan : (scan s.bitmap s.ram 0 (lim - s.lastI) s.lastI 0).1 = none := scan_zero
    unfold innerAlloc
    split
    · rfl
    · rename_i hfound
      rw [hfound] at hscan
      exact absurd hscan (by simp)
  simp only [alloc, hnull, if_true]

theorem alloc_firstFit (h : s.FirstFit size page) (hsize : 1 ≤ size) (hs : s.highestAddr < 2 ^ 64)
    (hpage : page ≠ 0) :
    s.alloc size = some (4096 * page,
      { s with lastI := page + size, ram := s.bitmap.setRange s.ram page size true }) := by
  have hlimit : s.limit < 2 ^ 52 := by unfold limit; omega
  have hle : page + size ≤ s.highestAddr / 0x1000 := h.le
  rcases hscan : scan s.bitmap s.ram size (s.highestAddr / 0x1000 - s.lastI) s.lastI
    0 with ⟨_ | found, cursor⟩
  · obtain ⟨-, hnone⟩ := scan_none hscan (by omega) (by omega)
    exact absurd h.clear (hnone page h.ge (by have := h.ge; omega))
  · obtain ⟨h₁, h₂, -, h₄⟩ := scan_some hscan (by omega) (by omega) (fun i _ _ => by omega)
    have hfound : found = page := by
      rcases Nat.lt_trichotomy found page with hlt | rfl | hgt
      · exact absurd h₄ (h.first found h₁ hlt)
      · rfl
      · exact absurd h.clear (scan_minimal hscan (by omega) (by omega) page h.ge hgt)
    subst hfound h₂
    have hret : u64 (found * 4096) = 4096 * found := by
      rw [u64_of_lt (by have := h.le; omega), Nat.mul_comm]
    simp only [alloc, innerAlloc, hscan, hret]
    rw [if_neg (by omega)]

theorem alloc_bump (hrun : ClearRun s.bitmap s.ram s.lastI size) (hlim : s.lastI + size ≤ s.limit)
    (hsize : 1 ≤ size) (hlast : s.lastI ≠ 0) (hs : s.highestAddr < 2 ^ 64) :
    s.alloc size = some (4096 * s.lastI,
      { s with lastI := s.lastI + size, ram := s.bitmap.setRange s.ram s.lastI size true }) :=
  alloc_firstFit ⟨le_refl _, hlim, hrun, fun q h₁ h₂ => by omega⟩ hsize hs hlast

theorem alloc_skip (hle : s.lastI ≤ page)
    (htaken : ∀ i, s.lastI ≤ i → i < page → s.bitmap.get s.ram i = true)
    (hrun : ClearRun s.bitmap s.ram page size) (hlim : page + size ≤ s.limit) (hsize : 1 ≤ size)
    (hs : s.highestAddr < 2 ^ 64) (hpage : page ≠ 0) :
    s.alloc size = { s with lastI := page }.alloc size := by
  have hfirst : s.FirstFit size page := by
    refine ⟨hle, hlim, hrun, fun q h₁ h₂ hclear => ?_⟩
    have hbit := hclear q (le_refl q) (by omega)
    rw [htaken q h₁ h₂] at hbit
    exact absurd hbit (by decide)
  rw [alloc_firstFit hfirst hsize hs hpage]
  exact (alloc_bump (s := { s with lastI := page }) hrun hlim hsize hpage hs).symm

end

end PhysicalMemory

end LimineOS
