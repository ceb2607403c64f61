import LimineOS.Mm.PmmRuns
import Mathlib.Order.Interval.Finset.Nat

/-!
# The memory counters

`alloc` moves `usedRam` and `freeRam` only on its second scan, while `free`
always moves them back. `directPages` adds up what the first scan of each
request of a run handed out; both counters are off by exactly that many pages
(`run_drift`), so they are right when it is a multiple of 2^52 pages and wrong
otherwise (`run_accounted_iff`).
-/

namespace LimineOS

open ByteMemory Transition

namespace PhysicalMemory

instance (mmap : List LimineMemmapEntry) (page : Nat) : Decidable (UsablePage mmap page) :=
  inferInstanceAs (Decidable (∃ e ∈ mmap, e.Covers page))

def clearPages (s : PhysicalMemory) : Finset Nat :=
  (Finset.range s.limit).filter fun i => s.bitmap.get s.ram i = false

/-- Both counters say what the bitmap and the held blocks say. -/
def Session.Accounted (st : Session) : Prop :=
  st.pmm.freeRam = 4096 * st.pmm.clearPages.card ∧ st.pmm.usedRam = 4096 * (st.held.map Block.size).sum

def FitsAbove (s : PhysicalMemory) (size : Nat) : Prop :=
  ∃ first < s.limit, s.lastI ≤ first ∧ first + size ≤ s.limit ∧
    ∀ i < size, s.bitmap.get s.ram (first + i) = false

instance (s : PhysicalMemory) (size : Nat) : Decidable (s.FitsAbove size) := by
  unfold FitsAbove
  infer_instance

/-- The pages a call takes from its first scan. -/
def Session.direct (st : Session) : PmmCall → Nat
  | .alloc size => if st.pmm.FitsAbove size then size else 0
  | .free .. => 0

def Session.directPages (st : Session) : List PmmCall → Nat
  | [] => 0
  | c :: cs => st.direct c + ((st.call c).map fun st' => st'.directPages cs).getD 0

-- ---------------------------------------------------------------------------
-- Counting pages
-- ---------------------------------------------------------------------------

section
variable {mmap : List LimineMemmapEntry} {e : LimineMemmapEntry} {N first count : Nat}

theorem card_range_pages (h : 4096 * first + 4096 * count ≤ 4096 * N) :
    ((Finset.range N).filter fun i => 4096 * first ≤ 4096 * i ∧
      4096 * i < 4096 * first + 4096 * count).card =
      count := by
  have : ((Finset.range N).filter fun i =>
      4096 * first ≤ 4096 * i ∧
      4096 * i < 4096 * first + 4096 * count) = Finset.Ico first (first + count) := by
    ext i
    simp only [Finset.mem_filter, Finset.mem_range, Finset.mem_Ico]
    omega
  rw [this, Nat.card_Ico, Nat.add_sub_cancel_left]

theorem card_covers (hu : e.type = limineMemmapUsable) (ha : 4096 ∣ e.base ∧ 4096 ∣ e.length)
    (hN : e.base + e.length ≤ 4096 * N) :
    4096 * ((Finset.range N).filter e.Covers).card = e.length := by
  obtain ⟨⟨b, hb⟩, ⟨l, hl⟩⟩ := ha
  have hfilter : (Finset.range N).filter e.Covers =
      (Finset.range N).filter fun i => 4096 * b ≤ 4096 * i ∧ 4096 * i < 4096 * b + 4096 * l := by
    refine Finset.filter_congr fun i _ => ?_
    simp only [LimineMemmapEntry.Covers, hu, true_and, hb, hl]
  rw [hfilter, card_range_pages (by omega), hl]

theorem card_usablePages (hm : MapOk mmap)
    (hN : ∀ e ∈ mmap, e.type = limineMemmapUsable → e.base + e.length ≤ 4096 * N) :
    4096 * ((Finset.range N).filter (UsablePage mmap)).card = usableBytes mmap := by
  induction mmap with
  | nil => simp [UsablePage, usableBytes]
  | cons e es ih =>
    have htail : MapOk es :=
      ⟨fun f hf => hm.aligned f (by simp [hf]), fun f hf => hm.inSpace f (by simp [hf]),
        (List.pairwise_cons.mp hm.disjoint).2⟩
    have hsplit : (Finset.range N).filter (UsablePage (e :: es)) =
        (Finset.range N).filter e.Covers ∪ (Finset.range N).filter (UsablePage es) := by
      rw [← Finset.filter_or]
      refine Finset.filter_congr fun i _ => ?_
      simp only [UsablePage, List.mem_cons, exists_eq_or_imp]
    have hdisj : Disjoint ((Finset.range N).filter e.Covers)
        ((Finset.range N).filter (UsablePage es)) := by
      rw [Finset.disjoint_filter]
      rintro i - hcov ⟨f, hf, hcov'⟩
      exact (List.pairwise_cons.mp hm.disjoint).1 f hf i ⟨hcov, hcov'⟩
    rw [hsplit, Finset.card_union_of_disjoint hdisj, Nat.mul_add,
      ih htail fun f hf => hN f (by simp [hf]), usableBytes, usableBytes, List.map_cons, List.sum_cons]
    by_cases hu : e.type = limineMemmapUsable
    · rw [if_pos hu, card_covers hu (hm.aligned e (by simp) hu) (hN e (by simp) hu)]
    · rw [if_neg hu, Finset.filter_false_of_mem fun i _ h => hu h.1]
      simp

end

-- ---------------------------------------------------------------------------
-- One call
-- ---------------------------------------------------------------------------

section
variable {P : Pool} {s s' : PhysicalMemory} {L : Ledger Block.pages P.avail} {n p page : Nat}

theorem clearPages_card_le (s : PhysicalMemory) : s.clearPages.card ≤ s.limit := by
  have := Finset.card_filter_le (Finset.range s.limit) fun i => s.bitmap.get s.ram i = false
  rwa [Finset.card_range] at this

theorem card_mark {b : Bitmap} {ram ram' : Mem} {lim : Nat}
    (hlim : ∀ i, page ≤ i → i < page + n → i < lim) (hrun : ClearRun b ram page n)
    (hram : ∀ i < lim, b.get ram' i = if page ≤ i ∧ i < page + n then true else b.get ram i) :
    ((Finset.range lim).filter fun i => b.get ram i = false).card =
      ((Finset.range lim).filter fun i => b.get ram' i = false).card + n := by
  have hsplit : ((Finset.range lim).filter fun i => b.get ram i = false) =
      ((Finset.range lim).filter fun i => b.get ram' i = false) ∪ Finset.Ico page (page + n) := by
    ext i
    simp only [Finset.mem_filter, Finset.mem_range, Finset.mem_union, Finset.mem_Ico]
    constructor
    · rintro ⟨hi, hclear⟩
      rw [hram i hi]
      by_cases h : page ≤ i ∧ i < page + n
      · exact .inr h
      · exact .inl ⟨hi, by rw [if_neg h, hclear]⟩
    · rintro (⟨hi, hclear⟩ | h)
      · rw [hram i hi] at hclear
        split at hclear
        · simp at hclear
        · exact ⟨hi, hclear⟩
      · exact ⟨hlim i h.1 h.2, hrun i h.1 h.2⟩
  have hdisj : Disjoint ((Finset.range lim).filter fun i => b.get ram' i = false)
      (Finset.Ico page (page + n)) := by
    rw [Finset.disjoint_left]
    intro i hi h
    simp only [Finset.mem_filter, Finset.mem_range, Finset.mem_Ico] at hi h
    rw [hram i hi.1, if_pos h] at hi
    simp at hi
  rw [hsplit, Finset.card_union_of_disjoint hdisj, Nat.card_Ico, Nat.add_sub_cancel_left]

/-- What one `alloc` does to the clear pages and the counters. -/
theorem alloc_counts (h : Refines P s L) (ha : s.alloc n = some (p, s')) (hn : 1 ≤ n) :
    s.clearPages.card = s'.clearPages.card + n ∧
      ((s.FitsAbove n ∧ s'.freeRam = s.freeRam ∧ s'.usedRam = s.usedRam) ∨
        (¬s.FitsAbove n ∧ s'.freeRam = subU64 s.freeRam (n * 0x1000) ∧
          s'.usedRam = u64 (s.usedRam + n * 0x1000))) := by
  have hhigh : s.highestAddr < 2 ^ 64 := h.highestAddr ▸ P.inSpace
  have hlimit : s.limit = P.limit := by rw [limit, h.highestAddr, Pool.limit]
  obtain ⟨page, rfl, hle, hclear, hcase⟩ := alloc_cases ha hn hhigh (hlimit ▸ h.cursor)
  have hzero : ∀ i < s.limit,
      s.bitmap.get (memset (s.bitmap.setRange s.ram page n true) (4096 * page) 0 (4096 * n)) i =
        s.bitmap.get (s.bitmap.setRange s.ram page n true) i := by
    intro i hi
    rw [h.bitmap]
    exact P.get_memset (h.clearRun hclear (hlimit ▸ hle)).1 (hlimit ▸ hi)
  rcases hcase with ⟨hfit, rfl⟩ | ⟨hnone, -, rfl⟩
  · refine ⟨card_mark (by omega) hclear fun i _ => Bitmap.get_setRange .., .inl ⟨?_, rfl, rfl⟩⟩
    exact ⟨page, by omega, hfit.ge, hle, fun i hi => hclear _ (by omega) (by omega)⟩
  · refine ⟨card_mark (by omega) hclear fun i hi => ?_, .inr ⟨?_, rfl, rfl⟩⟩
    · exact (hzero i hi).trans (Bitmap.get_setRange ..)
    · rintro ⟨first, -, hge, hle', hrun⟩
      refine hnone first hge hle' fun i h₁ h₂ => ?_
      obtain ⟨k, rfl⟩ := Nat.exists_eq_add_of_le h₁
      exact hrun k (by omega)

theorem free_counts (h : Refines P s L) (hb : ⟨p, n⟩ ∈ L.held) :
    (s.free p n).clearPages.card = s.clearPages.card + n := by
  have hlimit : s.limit = P.limit := by rw [limit, h.highestAddr, Pool.limit]
  have hpages : ∀ i, p / 4096 ≤ i → i < p / 4096 + n → i < s.limit ∧ s.bitmap.get s.ram i = true := by
    intro i h₁ h₂
    have hi : i ∈ Block.pages ⟨p, n⟩ := ⟨h₁, h₂⟩
    have hlim : i < P.limit := (L.inside _ hb hi).1
    exact ⟨by omega, by rw [h.bitmap]; exact (h.set_iff hlim).mpr (.inr (.inr ⟨_, hb, hi⟩))⟩
  refine card_mark (fun i h₁ h₂ => (hpages i h₁ h₂).1) ?_ ?_
  · intro i h₁ h₂
    simp only [free, Bitmap.get_setRange]
    rw [if_pos ⟨h₁, h₂⟩]
  · intro i hi
    simp only [free, Bitmap.get_setRange]
    split
    · rename_i hin
      exact (hpages i hin.1 hin.2).2
    · rfl

end

-- ---------------------------------------------------------------------------
-- Runs
-- ---------------------------------------------------------------------------

section
variable {P : Pool} {st st' : Session} {c : PmmCall} {total : Nat}

def Session.Conserves (total : Nat) (st : Session) : Prop :=
  st.pmm.clearPages.card + (st.held.map Block.size).sum = total

theorem Session.Conserves.call (h : st.Conserves total) (hs : st.Sound P)
    (hc : Steps Session.call st c st') : st'.Conserves total := by
  obtain ⟨L, hL, hr⟩ := hs
  unfold Session.Conserves at h ⊢
  cases c with
  | alloc size =>
    obtain ⟨hsize, p, s', ha, rfl⟩ := Session.alloc_cases hc
    have hcount := (alloc_counts hr ha hsize).1
    simp only [List.map_cons, List.sum_cons]
    omega
  | free ptr size =>
    obtain ⟨hmem, rfl⟩ := Session.free_cases hc
    have hcount := free_counts hr (hL ▸ hmem)
    have hsum := L.total_give Block.size (hL ▸ hmem : ⟨ptr, size⟩ ∈ L.held)
    simp only [Ledger.total, Ledger.give, hL] at hsum
    simp only
    omega

/-- Both counters, as far as the hardware's 64 bits hold them, are off by
`drift` pages. -/
structure Session.Drifted (drift : Nat) (st : Session) : Prop where
  free : st.pmm.freeRam = u64 (4096 * (st.pmm.clearPages.card + drift))
  used : u64 (st.pmm.usedRam + 4096 * drift) = u64 (4096 * (st.held.map Block.size).sum)
  used_lt : st.pmm.usedRam < 2 ^ 64

theorem Session.Drifted.call {drift : Nat} (h : st.Drifted drift) (hs : st.Sound P)
    (hc : Steps Session.call st c st') : st'.Drifted (drift + st.direct c) := by
  obtain ⟨L, hL, hr⟩ := hs
  obtain ⟨hfree, hused, hlt⟩ := h
  unfold u64 at hfree hused
  cases c with
  | alloc size =>
    obtain ⟨hsize, p, s', ha, rfl⟩ := Session.alloc_cases hc
    obtain ⟨hcount, hcase⟩ := alloc_counts hr ha hsize
    rcases hcase with ⟨hfits, hfree', hused'⟩ | ⟨hfits, hfree', hused'⟩
    · -- the first scan took the pages; no counter has moved
      have hdirect : st.direct (.alloc size) = size := if_pos hfits
      rw [hdirect]
      refine ⟨?_, ?_, by rw [hused']; exact hlt⟩ <;>
        simp only [u64, List.map_cons, List.sum_cons] <;> omega
    · have hdirect : st.direct (.alloc size) = 0 := if_neg hfits
      rw [hdirect]
      unfold subU64 at hfree'
      unfold u64 at hused'
      refine ⟨?_, ?_, by simp only; omega⟩ <;> simp only [u64, List.map_cons, List.sum_cons] <;> omega
  | free ptr size =>
    obtain ⟨hmem, rfl⟩ := Session.free_cases hc
    have hcount := free_counts hr (hL ▸ hmem)
    have hsum := L.total_give Block.size (hL ▸ hmem : ⟨ptr, size⟩ ∈ L.held)
    simp only [Ledger.total, Ledger.give, hL] at hsum
    have hfree' := free_freeRam st.pmm ptr size
    have hused' := free_usedRam st.pmm ptr size
    have hdirect : st.direct (.free ptr size) = 0 := rfl
    unfold u64 at hfree'
    unfold subU64 at hused'
    rw [hdirect]
    refine ⟨?_, ?_, by simp only; omega⟩ <;> simp only [u64] <;> omega

theorem Session.Drifted.accounted_iff {drift : Nat} (h : st.Drifted drift) (hcons : st.Conserves total)
    (htotal : 4096 * total < 2 ^ 64) : st.Accounted ↔ 2 ^ 52 ∣ drift := by
  obtain ⟨hfree, hused, hlt⟩ := h
  unfold u64 at hfree hused
  unfold Session.Conserves at hcons
  unfold Session.Accounted
  omega

theorem Session.Accounted.drifted (h : st.Accounted) (hcons : st.Conserves total)
    (htotal : 4096 * total < 2 ^ 64) : st.Drifted 0 := by
  obtain ⟨hfree, hused⟩ := h
  unfold Session.Conserves at hcons
  refine ⟨?_, ?_, ?_⟩
  · rw [hfree, u64_of_lt (by omega), Nat.add_zero]
  · rw [hused, Nat.mul_zero, Nat.add_zero]
  · omega

theorem directPages_snoc {s₀ : Session} {calls : List PmmCall}
    (h : Run (Steps Session.call) s₀ calls st) :
    s₀.directPages (calls ++ [c]) = s₀.directPages calls + st.direct c := by
  induction calls generalizing s₀ with
  | nil =>
    obtain rfl := run_nil_iff.mp h
    rw [List.nil_append, Session.directPages, Session.directPages]
    cases s₀.call c <;> simp [Session.directPages]
  | cons d calls ih =>
    obtain ⟨s₁, h₁, h⟩ := run_cons_iff.mp h
    have h₁' : s₀.call d = some s₁ := h₁
    rw [List.cons_append, Session.directPages, Session.directPages, h₁', Option.map_some,
      Option.map_some, Option.getD_some, Option.getD_some, ih h, Nat.add_assoc]

-- ---------------------------------------------------------------------------
-- From Initialize on
-- ---------------------------------------------------------------------------

variable {mmap : List LimineMemmapEntry} {ram : Mem} {sizeOf : Nat → Nat} {size : Nat}
  {s : PhysicalMemory}

/-- `Initialize` leaves `freeRam` at the usable bytes less the bitmap's, which
are the clear pages. -/
theorem initializeWith_accounted (hm : MapOk mmap)
    (hends : ∀ e ∈ mmap, e.type = limineMemmapUsable → e.base + e.length < 2 ^ 64)
    (h : initializeWith sizeOf mmap ram = s) (hsize : size = sizeOf s.highestAddr) (hdvd : 4096 ∣ size)
    (hcovers : s.highestAddr / 4096 ≤ 8 * size)
    (hfit : ∃ e ∈ mmap, e.type = limineMemmapUsable ∧ size ≤ e.length) :
    Session.Accounted ⟨s, []⟩ := by
  obtain ⟨-, hused, hhigh, ⟨q, hq⟩, hfree, htop, ⟨e, he, hu, hbase, hle⟩, hbits⟩ :=
    initializeWith_spec hm h hsize hdvd hfit
  obtain ⟨k, hk⟩ := hdvd
  have hends' : ∀ e ∈ mmap, e.type = limineMemmapUsable → e.base + e.length ≤ 4096 * s.limit := by
    intro e he hu
    have h₁ := htop e he hu
    obtain ⟨⟨b, hb⟩, ⟨l, hl⟩⟩ := hm.aligned e he hu
    rw [u64_of_lt (hends e he hu)] at h₁
    unfold limit
    omega
  have hend := hends' e he hu
  have hcard := card_usablePages hm hends'
  -- the usable pages are the clear ones and the bitmap's
  have hmark : ((Finset.range s.limit).filter (UsablePage mmap)).card = s.clearPages.card + k := by
    have hsplit : (Finset.range s.limit).filter (UsablePage mmap) = s.clearPages ∪
        Finset.Ico q (q + k) := by
      ext i
      simp only [clearPages, Finset.mem_union, Finset.mem_filter, Finset.mem_range, Finset.mem_Ico]
      constructor
      · rintro ⟨hi, hui⟩
        by_cases hb : BitmapPage s.bitmap size i
        · unfold BitmapPage at hb
          exact .inr (by omega)
        · refine .inl ⟨hi, ?_⟩
          rw [← Bool.not_eq_true, hbits i (by unfold limit at hi; omega)]
          tauto
      · rintro (⟨hi, hclear⟩ | hi)
        · rw [← Bool.not_eq_true, hbits i (by unfold limit at hi; omega)] at hclear
          exact ⟨hi, by tauto⟩
        · exact ⟨by omega, e, he, hu, by omega, by omega⟩
    have hdisj : Disjoint s.clearPages (Finset.Ico q (q + k)) := by
      rw [Finset.disjoint_left]
      intro i hi hin
      simp only [clearPages, Finset.mem_filter, Finset.mem_range, Finset.mem_Ico] at hi hin
      have := (hbits i (by unfold limit at hi; omega)).mpr (.inr ⟨by omega, by omega⟩)
      simp [hi.2] at this
    rw [hsplit, Finset.card_union_of_disjoint hdisj, Nat.card_Ico, Nat.add_sub_cancel_left]
  have hbound : ((Finset.range s.limit).filter (UsablePage mmap)).card ≤ s.limit := by
    simpa using Finset.card_filter_le (Finset.range s.limit) (UsablePage mmap)
  have hlimit : 4096 * s.limit < 2 ^ 64 := by unfold limit; omega
  refine ⟨?_, by simpa using hused⟩
  change s.freeRam = 4096 * s.clearPages.card
  rw [hfree, u64_of_lt (by omega), subU64_of_le (by omega) (by omega)]
  omega

/-- After `Initialize` and any run, `freeRam` and `usedRam` are off by the pages
that first scans handed out. -/
theorem run_drift {calls : List PmmCall} (hm : MapOk mmap)
    (hends : ∀ e ∈ mmap, e.type = limineMemmapUsable → e.base + e.length < 2 ^ 64)
    (hcovers : (initializeMemory mmap ram).highestAddr / 4096 ≤
      8 * bitmapSize (initializeMemory mmap ram).highestAddr)
    (hfit : ∃ e ∈ mmap, e.type = limineMemmapUsable ∧
      bitmapSize (initializeMemory mmap ram).highestAddr ≤ e.length)
    (hrun : Run (Steps Session.call) ⟨initializeMemory mmap ram, []⟩ calls st) :
    st.Drifted (Session.directPages ⟨initializeMemory mmap ram, []⟩ calls) ∧
      ∃ total, 4096 * total < 2 ^ 64 ∧ st.Conserves total := by
  have hdvd := bitmapSize_dvd (initializeMemory mmap ram).highestAddr
  obtain ⟨P, -, -, hPhigh, -, hinit⟩ := initializeWith_refines hm rfl rfl hdvd hcovers hfit
  have hacc : Session.Accounted ⟨initializeMemory mmap ram, []⟩ :=
    initializeWith_accounted hm hends rfl rfl hdvd hcovers hfit
  obtain ⟨total, hcons⟩ : ∃ total, Session.Conserves total ⟨initializeMemory mmap ram, []⟩ := ⟨_, rfl⟩
  have htotal : 4096 * total < 2 ^ 64 := by
    have hle := clearPages_card_le (initializeMemory mmap ram)
    have hspace := P.inSpace
    rw [hPhigh] at hspace
    change (initializeMemory mmap ram).highestAddr < 2 ^ 64 at hspace
    simp only [Session.Conserves, List.map_nil, List.sum_nil] at hcons
    unfold limit at hle
    omega
  have hstart : Session.Drifted 0 ⟨initializeMemory mmap ram, []⟩ :=
    Session.Accounted.drifted hacc hcons htotal
  suffices hall : Run (Steps Session.call) ⟨initializeMemory mmap ram, []⟩ calls st ∧ st.Sound P ∧
      st.Drifted (Session.directPages ⟨initializeMemory mmap ram, []⟩ calls) ∧ st.Conserves total from
    ⟨hall.2.2.1, total, htotal, hall.2.2.2⟩
  refine hrun.history (I :=
    fun calls st => Run (Steps Session.call) ⟨initializeMemory mmap ram, []⟩ calls st ∧
    st.Sound P ∧ st.Drifted (Session.directPages ⟨initializeMemory mmap ram, []⟩ calls) ∧
    st.Conserves total)
    ⟨.nil, ⟨.empty, rfl, hinit⟩, hstart, hcons⟩ ?_
  rintro es t c u ⟨hr, hs, hd, hco⟩ hc
  exact ⟨.snoc hr hc, hs.call hc, directPages_snoc hr ▸ hd.call hs hc, hco.call hs hc⟩

/-- Both counters are right after a run if and only if the pages its first
scans handed out add up to a multiple of 2^52. -/
theorem run_accounted_iff {calls : List PmmCall} (hm : MapOk mmap)
    (hends : ∀ e ∈ mmap, e.type = limineMemmapUsable → e.base + e.length < 2 ^ 64)
    (hcovers : (initializeMemory mmap ram).highestAddr / 4096 ≤
      8 * bitmapSize (initializeMemory mmap ram).highestAddr)
    (hfit : ∃ e ∈ mmap, e.type = limineMemmapUsable ∧
      bitmapSize (initializeMemory mmap ram).highestAddr ≤ e.length)
    (hrun : Run (Steps Session.call) ⟨initializeMemory mmap ram, []⟩ calls st) :
    st.Accounted ↔ 2 ^ 52 ∣ Session.directPages ⟨initializeMemory mmap ram, []⟩ calls := by
  obtain ⟨hdrift, total, htotal, hcons⟩ := run_drift hm hends hcovers hfit hrun
  exact hdrift.accounted_iff hcons htotal

/-- The first request of a small machine takes two pages and moves no counter. -/
theorem sixteenPages_not_accounted : MapOk sixteenPages ∧ ∃ p s',
    Run (Steps Session.call) ⟨initializeMemory sixteenPages fun _ => 0, []⟩ [.alloc 2] ⟨s', [⟨p, 2⟩]⟩ ∧
      ¬Session.Accounted ⟨s', [⟨p, 2⟩]⟩ := by
  obtain ⟨hlast, hused, -⟩ :=
    initializeWith_spec sixteenPages_ok rfl (sixteenPages_size fun _ => 0) (by decide) sixteenPages_fit
  obtain ⟨hhigh, -⟩ := sixteenPages_init fun _ => 0
  obtain ⟨p, s', ha⟩ := sixteenPages_alloc fun _ => 0
  refine ⟨sixteenPages_ok, p, s', .single (Session.call_alloc ha (by decide)), fun hacc => ?_⟩
  have hused' : s'.usedRam = 4096 * 2 := hacc.2
  obtain ⟨page, -, -, -, ⟨-, rfl⟩ | ⟨-, hle, -⟩⟩ :=
    alloc_cases ha (by decide) (by rw [hhigh]; decide) (by rw [hlast]; exact Nat.zero_le _)
  · exact absurd (hused.symm.trans hused') (by decide)
  · omega

theorem run_accounted_iff_sixteenPages : ∃ st,
    Run (Steps Session.call) ⟨initializeMemory sixteenPages fun _ => 0, []⟩ [.alloc 2] st ∧
      (st.Accounted ↔ 2 ^ 52 ∣ Session.directPages ⟨initializeMemory sixteenPages fun _ => 0, []⟩
        [.alloc 2]) := by
  obtain ⟨p, s', ha⟩ := sixteenPages_alloc fun _ => 0
  have hrun : Run (Steps Session.call) ⟨initializeMemory sixteenPages fun _ => 0, []⟩ [.alloc 2]
      ⟨s', [⟨p, 2⟩]⟩ :=
    .single (Session.call_alloc ha (by decide))
  refine ⟨_, hrun, run_accounted_iff sixteenPages_ok ?_ ?_ ?_ hrun⟩
  · simp only [sixteenPages, List.mem_singleton]
    rintro e rfl -
    decide
  · simp only [initializeMemory, (sixteenPages_init _).1]
    decide
  · simp only [initializeMemory, (sixteenPages_init _).1]
    exact sixteenPages_fit

end

end PhysicalMemory

end LimineOS
