import LimineOS.Mm.HeapRuns
import Mathlib.Data.Finset.Card
import Mathlib.Data.List.Nodup

/-!
# What the heap costs

A region without a used block is one free block, and of each class at most five of
them are kept. A block serves only requests of its own class, so that without calls
of `free` every small object costs a region of sixteen pages.
-/

namespace LimineOS

open ByteMemory Fueled Tiling Transition VirtualMemory

open BoundaryTag (sizeof noIndex)

namespace Heap

def Idle (s : Heap) (r : Region) : Prop := ∀ a ∈ r.tags, s.get .index a ≠ noIndex

instance (s : Heap) (r : Region) : Decidable (s.Idle r) := inferInstanceAs (Decidable (∀ a ∈ r.tags, _))

section
variable {own : Set Nat} {s s' : Heap} {R R' : List Region} {r : Region} {L L' : Nat → List Nat}
  {O O' : ObjectStore}
  {tr : List (Event × Nat)} {mmap : List LimineMemmapEntry} {ram : Mem} {i n size t : Nat}

-- ---------------------------------------------------------------------------
-- Regions that nobody uses
-- ---------------------------------------------------------------------------

theorem Region.Ok.base_mem {F : Headers} (h : r.Ok F) : r.base ∈ r.tags := by
  obtain ⟨-, n, hn, hlen⟩ := h.pages
  have htiles := h.tiles
  have hpc : 0 < pageCount := by decide
  match htags : r.tags with
  | [] =>
    rw [htags] at htiles
    have hend : r.base = r.base + r.len := htiles
    omega
  | a :: l =>
    rw [htags] at htiles
    rw [htiles.1]
    exact List.mem_cons_self

theorem Wf.idle (h : Wf own s R L) (hr : r ∈ R) (hidle : s.Idle r) :
    r.tags = [r.base] ∧ s.Whole r.base ∧ r.base ∈ L (exponent (r.len - sizeof)) := by
  have hok := h.tiled.ok r hr
  have hbase := hok.base_mem
  have halt := h.balanced.coalesced r hr
  have hone : r.tags = [r.base] := by
    match htags : r.tags with
    | [] => exact absurd (htags ▸ hbase) List.not_mem_nil
    | [a] =>
      have hmem : r.base ∈ [a] := htags ▸ hbase
      rw [List.mem_singleton.mp hmem]
    | a :: b :: l =>
      rw [htags, Alternate, List.isChain_cons_cons] at halt
      rcases halt.1 with hno | hno
      · exact absurd hno (hidle a (htags ▸ by simp))
      · exact absurd hno (hidle b (htags ▸ by simp))
  have hsplit := hok.split [] r.base [] hone
  have hright : link (s.get .splitRight r.base) = none := hsplit.1
  have hleft : link (s.get .splitLeft r.base) = none := hsplit.2
  have hreal : s.get .realSize r.base = r.len := by
    have htiles := hok.tiles
    rw [hone] at htiles
    have hend : r.base + s.get .realSize r.base = r.base + r.len := htiles.2.2
    omega
  have hlisted := (h.toShaped.used_or_listed ⟨r, hr, hbase⟩).resolve_left (hidle r.base hbase)
  have hclass := h.balanced.classed _ _ hlisted
  rw [hreal] at hclass
  exact ⟨hone, ⟨link_eq_none.mp hleft, link_eq_none.mp hright⟩, hclass ▸ hlisted⟩

theorem Wf.bases_nodup (h : Wf own s R L) : (R.map Region.base).Nodup := by
  rw [List.Nodup, List.pairwise_map]
  refine h.tiled.apart.imp_of_mem ?_
  intro r q hr hq hdisj heq
  have hmem : ∀ r ∈ R, r.base ∈ r.bytes := fun r hr => by
    obtain ⟨-, n, hn, hlen⟩ := (h.tiled.ok r hr).pages
    have hpc : 0 < pageCount := by decide
    exact ⟨le_refl _, by omega⟩
  exact Set.disjoint_left.mp hdisj (hmem r hr) (heq ▸ hmem q hq)

theorem Wf.few_idle (h : Wf own s R L) (i : Nat) :
    ((R.countP fun r => s.Idle r ∧ exponent (r.len - sizeof) = i : Nat) : Int) ≤ maxComplete := by
  refine le_trans ?_ (h.balanced.few i)
  rw [h.balanced.counted i, List.countP_eq_length_filter, List.countP_eq_length_filter, Nat.cast_le,
    ← List.length_map Region.base]
  refine (List.Nodup.subperm ?_ ?_).length_le
  · exact (h.bases_nodup).sublist (List.filter_sublist.map _)
  · intro b hb
    obtain ⟨r, hmem, rfl⟩ := List.mem_map.mp hb
    obtain ⟨hr, hP⟩ := List.mem_filter.mp hmem
    obtain ⟨hidle, rfl⟩ := of_decide_eq_true hP
    obtain ⟨-, hwhole, hlisted⟩ := h.idle hr hidle
    exact List.mem_filter.mpr ⟨hlisted, decide_eq_true hwhole⟩

theorem Wf.mem_territory_iff {P : Set Nat} (h : Wf own s R L) (hbooks : strangers s R = P) (x : Nat) :
    x ∈ territory R ↔ s.pmm.Held x ∧ x ∉ P := by
  rw [← hbooks]
  exact ⟨fun hx => ⟨(h.held x hx).1, fun hs => hs.2 hx⟩,
    fun ⟨hheld, hnot⟩ => not_not.mp fun hx => hnot ⟨hheld, hx⟩⟩

/-- Whatever has happened, the heap has the pages that were taken and are neither
the clients' nor given back, and few of its regions stand by. With no objects left
these are all regions. -/
theorem run_few_idle (hm : MapOk mmap) (hfits : PhysicalMemory.Fits mmap)
    (hspace : PhysicalMemory.highestUsable mmap ≤ 2 ^ 63)
    (hO : Boots (bootOwn mmap ram) (bootHeap mmap ram).pmm O)
    (hrun : Run HeapStep (bootHeap mmap ram) tr s) (hgood : Behaved O tr) :
    ∃ O' R L, Run Serves O tr O' ∧ Keeps (bootOwn mmap ram) s R L O' ∧
      (∀ x, x ∈ territory R ↔
        s.pmm.Held x ∧ x ∉ pagesHeldAfter {x | (bootHeap mmap ram).pmm.Held x} tr) ∧
      (∀ i, ((R.countP fun r => s.Idle r ∧ exponent (r.len - sizeof) = i : Nat) : Int) ≤ maxComplete) ∧
      ((∀ p, O'.objects p = none) → ∀ r ∈ R, s.Idle r ∧ r.tags = [r.base]) := by
  obtain ⟨O', hserves, R, L, hk, hbal⟩ := (hO.keeps (hfits.sane hm hspace)).run hrun hgood
  have hheld := hbal.held
  rw [strangers_nil] at hheld
  refine ⟨O', R, L, hserves, hk, hk.wf.mem_territory_iff hheld, hk.wf.few_idle, fun hnone r hr => ?_⟩
  have hidle : s.Idle r := fun a ha hno => by
    obtain ⟨bs, hbs⟩ := hk.known a ⟨⟨r, hr, ha⟩, hno⟩
    exact absurd hbs (by simp [hnone])
  exact ⟨hidle, (hk.wf.idle hr hidle).1⟩

theorem run_few_idle_lowMemory : ∃ tr s, Run HeapStep lowHeap tr s ∧ tr.length = 7 ∧ ∃ O' R L,
    Run Serves .empty tr O' ∧ Keeps lowOwn s R L O' ∧
      (∀ x, x ∈ territory R ↔ s.pmm.Held x ∧ x ∉ pagesHeldAfter {x | lowHeap.pmm.Held x} tr) ∧
      (∀ i, ((R.countP fun r => s.Idle r ∧ exponent (r.len - sizeof) = i : Nat) : Int) ≤ maxComplete) ∧
      ((∀ p, O'.objects p = none) → ∀ r ∈ R, s.Idle r ∧ r.tags = [r.base]) := by
  obtain ⟨p, q, r, c, s, h⟩ := lowRun_calloc
  exact ⟨_, s, h.run, rfl,
    run_few_idle lowMemory_ok lowMemory_fits (by decide) boots_empty h.run h.good⟩

-- ---------------------------------------------------------------------------
-- Small objects
-- ---------------------------------------------------------------------------

theorem getexpShift_le_of_lt {left shift k x : Nat} (hk : shift ≤ k) (hx : x < 2 ^ k) :
    getexpShift x left shift ≤ k := by
  induction left generalizing shift with
  | zero => exact hk
  | succ left ih =>
    rw [getexpShift]
    split
    · exact hk
    · rename_i hle
      refine ih (Nat.lt_of_le_of_ne hk ?_)
      rintro rfl
      rw [Nat.one_shiftLeft] at hle
      omega

theorem le_getexpShift {left shift k x : Nat} (hk : k ≤ shift + left) (hx : 2 ^ k ≤ 2 * x) :
    k ≤ getexpShift x left shift := by
  induction left generalizing shift with
  | zero => exact hk
  | succ left ih =>
    rw [getexpShift]
    split
    · rename_i hlt
      rw [Nat.one_shiftLeft] at hlt
      by_contra hno
      have hpow : 2 ^ (shift + 1) ≤ 2 ^ k := Nat.pow_le_pow_right (by decide) (by omega)
      rw [Nat.pow_succ] at hpow
      omega
    · exact ih (by omega)

theorem getexp_eq {x k : Nat} (hle : 2 ^ k ≤ x) (hlt : x < 2 ^ (k + 1)) (hk : minExp ≤ k)
    (hmax : k < maxExp) :
    getexp x = k := by
  have hmin : 2 ^ minExp ≤ x := le_trans (Nat.pow_le_pow_right (by decide) hk) hle
  have hup : getexpShift x (maxExp - minExp) minExp ≤ k + 1 := getexpShift_le_of_lt (by omega) hlt
  have hlow : k + 1 ≤ getexpShift x (maxExp - minExp) minExp :=
    le_getexpShift (by omega) (by rw [Nat.pow_succ]; omega)
  rw [getexp, Nat.one_shiftLeft, if_neg (by omega)]
  omega

theorem exponent_lt_of_lt {x k : Nat} (hk : minExp < k) (hlt : x < 2 ^ k) : exponent x < k := by
  have hup : getexpShift x (maxExp - minExp) minExp ≤ k := getexpShift_le_of_lt (by omega) hlt
  rw [exponent, getexp]
  split_ifs <;> omega

/-- No free block serves requests for less than 32 KiB. -/
def Coarse (L : Nat → List Nat) : Prop := ∀ i, ∀ a ∈ L i, 15 ≤ i

theorem Wf.malloc_small (h : Wf own s R L) (hcoarse : Coarse L) (hsize : size ≤ 32672) :
    Safe (s.malloc size) fun r => ∃ t s' R' L', r = (t + sizeof, s') ∧ Wf own s' R' L' ∧ Coarse L' ∧
      strangers s' R' = strangers s R ∧ s'.pmm.limit = s.pmm.limit ∧
      R'.map Region.extent = (t, 65536) :: R.map Region.extent := by
  have hsz : sizeof = 48 := rfl
  have hu32 : u32 size = size := Nat.mod_eq_of_lt (by omega)
  have hpages : 4096 * pagesFor (size + sizeof) = 65536 := by
    obtain ⟨-, hge, hup⟩ := pagesFor_spec (size + sizeof)
    have hps : pagesFor (size + sizeof) * pageSize = 4096 * pagesFor (size + sizeof) := Nat.mul_comm ..
    have hpc : pageCount = 16 := rfl
    omega
  have hclass : exponent (65536 - sizeof - size - sizeof) = 15 := by
    have hget : getexp (65536 - sizeof - size - sizeof) = (15 : Nat) :=
      getexp_eq (by omega) (by omega) (by decide) (by decide)
    rw [exponent, hget]
    decide
  have hs := h.setUp
  refine Safe.bind hs.search_ends.safe_iterate fun tag htag => ?_
  rcases htag with ⟨rfl, -⟩ | ⟨hmem, -⟩
  · rw [if_pos rfl]
    refine Safe.bind (P := fun r => s.setUp.allocateNewTag (u32 size) = some r) (fun _ _ hr => hr) ?_
    rintro ⟨t, s'⟩ hr
    obtain ⟨R', L', hm, hextents, hlists⟩ := hs.malloc_fresh setUp_initialized (by omega) hr
    rw [hpages] at hextents hlists
    rw [hclass] at hlists
    refine safe_pure ⟨t, _, R', L', rfl, hm.wf, fun i a ha => ?_, hm.of_setUp.spares.strangers_eq hm.wf,
      hm.of_setUp.spares.limit, hextents⟩
    rcases hlists with rfl | ⟨c, rfl⟩
    · exact hcoarse i a ha
    · rcases eq_or_ne i 15 with rfl | hi
      · exact le_refl 15
      · rw [Function.update_of_ne hi] at ha
        exact hcoarse i a ha
  · have hlow : exponent (u32 size) < 15 := exponent_lt_of_lt (by decide) (by omega)
    have hhigh := hcoarse _ tag hmem
    omega

def Region.pageList (r : Region) : List Nat := List.range' (r.base / 4096) (r.len / 4096)

theorem Region.Ok.mem_pageList {F : Headers} (h : r.Ok F) {j : Nat} :
    j ∈ r.pageList ↔ 4096 * j ∈ r.bytes := by
  obtain ⟨haligned, n, -, hlen⟩ := h.pages
  rw [pageList, List.mem_range'_1, bytes, mem_span]
  omega

theorem Wf.pages_le {pmm : PhysicalMemory} (h : Wf own s R L) (hfree : ∀ x ∈ territory R, pmm.Free x) :
    (R.map fun r => r.len / 4096).sum ≤ pmm.freePages.card := by
  have hnodup : (R.flatMap Region.pageList).Nodup := by
    refine List.nodup_flatMap.mpr
      ⟨fun r _ => List.nodup_range', h.tiled.apart.imp_of_mem fun hr hq hdisj => ?_⟩
    refine List.disjoint_left.mpr fun j hj hj' => ?_
    exact Set.disjoint_left.mp hdisj ((h.tiled.ok _ hr).mem_pageList.mp hj)
      ((h.tiled.ok _ hq).mem_pageList.mp hj')
  have hsub : (R.flatMap Region.pageList).toFinset ⊆ pmm.freePages := fun j hj => by
    obtain ⟨r, hr, hj⟩ := List.mem_flatMap.mp (List.mem_toFinset.mp hj)
    exact PhysicalMemory.mem_freePages.mpr (hfree _ ⟨r, hr, (h.tiled.ok r hr).mem_pageList.mp hj⟩)
  have hle := Finset.card_le_card hsub
  rw [List.toFinset_card_of_nodup hnodup, List.length_flatMap] at hle
  refine le_trans (le_of_eq (congrArg List.sum (List.map_congr_left fun r _ => ?_))) hle
  exact List.length_range'.symm

/-- Objects of less than 32 KiB: while none is freed, each has a region of sixteen
pages of its own. -/
theorem run_small_cost (hm : MapOk mmap) (hfits : PhysicalMemory.Fits mmap)
    (hspace : PhysicalMemory.highestUsable mmap ≤ 2 ^ 63) (hrun : Run HeapStep (bootHeap mmap ram) tr s)
    (hsmall : ∀ e ∈ tr, ∃ size ≤ 32672, e.1 = .malloc size) :
    ∃ R L, Wf (bootOwn mmap ram) s R L ∧
      R.map Region.extent = (tr.map fun e => (e.2 - sizeof, 65536)).reverse ∧
      (∀ x, x ∈ territory R ↔ s.pmm.Held x ∧ ¬(bootHeap mmap ram).pmm.Held x) ∧
      16 * tr.length ≤ (bootHeap mmap ram).pmm.freePages.card := by
  have hwf : ∃ R L, Wf (bootOwn mmap ram) s R L ∧ Coarse L ∧
      strangers s R = {x | (bootHeap mmap ram).pmm.Held x} ∧
      s.pmm.limit = (bootHeap mmap ram).pmm.limit ∧
      R.map Region.extent = (tr.map fun e => (e.2 - sizeof, 65536)).reverse := by
    induction hrun with
    | nil =>
      have hnone : Boots (bootOwn mmap ram) (bootHeap mmap ram).pmm .empty := boots_empty
      exact ⟨[], fun _ => [], (hnone.keeps (hfits.sane hm hspace)).wf,
        fun _ _ ha => absurd ha List.not_mem_nil, strangers_nil, rfl, rfl⟩
    | @snoc es t e u _ hs ih =>
      obtain ⟨R, L, hwf, hcoarse, hbooks, hlimit, hext⟩ :=
        ih fun e' he' => hsmall e' (List.mem_append_left [e] he')
      obtain ⟨size, hsize, heq⟩ := hsmall e (by simp)
      obtain ⟨fuel, hexec⟩ := hs
      rw [heq] at hexec
      obtain ⟨p, s', R', L', hr, hwf', hcoarse', hbooks', hlimit', hext'⟩ :=
        hwf.malloc_small hcoarse hsize fuel _ hexec
      obtain ⟨hp, rfl⟩ := Prod.mk.inj hr
      refine ⟨R', L', hwf', hcoarse', hbooks'.trans hbooks, hlimit'.trans hlimit, ?_⟩
      rw [hext', hext, List.map_append, List.map_singleton, List.reverse_append, hp, Nat.add_sub_cancel]
      rfl
  obtain ⟨R, L, hwf, -, hbooks, hlimit, hext⟩ := hwf
  have hterr := hwf.mem_territory_iff hbooks
  refine ⟨R, L, hwf, hext, hterr, ?_⟩
  have hpages : R.map (fun r => r.len / 4096) = List.replicate tr.length 16 := by
    have hlens := congrArg (List.map fun e : Nat × Nat => e.2 / 4096) hext
    rw [List.map_map, List.map_reverse, List.map_map] at hlens
    refine hlens.trans (List.eq_replicate_iff.mpr ⟨by simp, fun n hn => ?_⟩)
    obtain ⟨e, -, rfl⟩ := List.mem_map.mp (List.mem_reverse.mp hn)
    exact (by decide : 65536 / 4096 = 16)
  have hfree : ∀ x ∈ territory R, (bootHeap mmap ram).pmm.Free x := fun x hx => by
    obtain ⟨hheld, hnot⟩ := (hterr x).mp hx
    have hlt : x / 4096 < (bootHeap mmap ram).pmm.limit := hlimit ▸ hheld.1
    exact ⟨hlt, Bool.eq_false_iff.mpr fun hset => hnot ⟨hlt, hset⟩⟩
  have hle := hwf.pages_le hfree
  rw [hpages, List.sum_replicate_nat] at hle
  omega

theorem run_small_cost_lowMemory :
    ∃ p q s, Run HeapStep lowHeap [(.malloc 100, p), (.malloc 20000, q)] s ∧
    ∃ R L, Wf lowOwn s R L ∧ R.map Region.extent = [(q - sizeof, 65536), (p - sizeof, 65536)] ∧
      (∀ x, x ∈ territory R ↔ s.pmm.Held x ∧ ¬lowHeap.pmm.Held x) ∧
      16 * 2 ≤ lowHeap.pmm.freePages.card := by
  have h₀ : LowRun [] lowHeap := ⟨.nil, .nil, fun _ he => absurd he List.not_mem_nil, by decide⟩
  have he : ∀ O', Allowed O' (.malloc 100) := fun _ => (by decide : 100 + sizeof + pageSize ≤ 2 ^ 32)
  obtain ⟨p, s₁, hs₁⟩ := h₀.next (fun O' _ => he O') (by decide)
  have h₁ := h₀.snoc hs₁ (fun O' _ => he O') (fun _ _ => Event.noConfusion) (show 0 + 16 ≤ 64 by decide)
  have he' : ∀ O', Allowed O' (.malloc 20000) :=
    fun _ => (by decide : 20000 + sizeof + pageSize ≤ 2 ^ 32)
  obtain ⟨q, s₂, hs₂⟩ := h₁.next (fun O' _ => he' O') (by decide)
  have hrun : Run HeapStep lowHeap [(.malloc 100, p), (.malloc 20000, q)] s₂ := .snoc h₁.run hs₂
  refine ⟨p, q, s₂, hrun, run_small_cost lowMemory_ok lowMemory_fits (by decide) hrun fun e he => ?_⟩
  rcases List.mem_cons.mp he with rfl | he
  · exact ⟨100, by decide, rfl⟩
  · exact ⟨20000, by decide, List.mem_singleton.mp he ▸ rfl⟩

end

end Heap

end LimineOS
