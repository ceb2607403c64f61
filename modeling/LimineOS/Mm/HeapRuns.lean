import LimineOS.Mm.DirectMap
import LimineOS.Mm.HeapClients

/-!
# Runs of the kernel heap

From boot on, whatever the clients of the heap and of the page allocator do in
whatever order, memory serves them as the store does, as long as they keep to the
rules. So an object keeps its bytes until its holder writes or frees it.
-/

namespace LimineOS

open ByteMemory Fueled Tiling Transition VirtualMemory

open BoundaryTag (sizeof)

namespace Event

def Touches : Event → Nat → Prop
  | .free q, p | .realloc q _, p | .write q _ _, p => q = p
  | _, _ => False

def makes : Event → Option Nat
  | .malloc size => some size
  | .calloc nobj size => some (nobj * size)
  | .realloc _ size => if size = 0 then none else some size
  | _ => none

end Event

namespace Heap

def HeapStep (s : Heap) (e : Event × Nat) (s' : Heap) : Prop := ∃ fuel, s.exec e.1 fuel = some (e.2, s')

def Refines (own : Set Nat) (s : Heap) (O : ObjectStore) : Prop := ∃ R L, Keeps own s R L O

def takes : Event → Nat
  | .allocPages n => n
  | e => draws e

/-- After a run from `s₀`, what is held and not the heap's is the clients', and no
more pages have been taken than were asked for. -/
structure Balance (s₀ : Heap) (R₀ : List Region) (tr : List (Event × Nat)) (s : Heap)
    (R : List Region) : Prop where
  held : strangers s R = pagesHeldAfter (strangers s₀ R₀) tr
  limit : s.pmm.limit = s₀.pmm.limit
  taken : s₀.pmm.freePages.card ≤ s.pmm.freePages.card + (tr.map fun e => takes e.1).sum

def Accounts (own : Set Nat) (s₀ : Heap) (R₀ : List Region) (tr : List (Event × Nat)) (s : Heap)
    (O : ObjectStore) : Prop :=
  ∃ R L, Keeps own s R L O ∧ Balance s₀ R₀ tr s R

/-- At boot there are no objects, and whoever holds pages knows what is in them. -/
structure Boots (own : Set Nat) (pmm : PhysicalMemory) (O : ObjectStore) : Prop where
  objects : ∀ p, O.objects p = none
  pages : ∀ x b, O.pages x = some b → pmm.Held x ∧ x ∉ own ∧ pmm.ram x = b

structure Visible (own : Set Nat) (s : Heap) (O : ObjectStore) : Prop where
  objects : ∀ p bs, O.objects p = some bs → Holds s.pmm.ram p bs
  pages : ∀ x b, O.pages x = some b → s.pmm.ram x = b
  apart : ∀ p bs q cs, O.objects p = some bs → O.objects q = some cs → p ≠ q →
    Disjoint (span p bs.length) (span q cs.length)
  outside : ∀ p bs x, O.objects p = some bs → x ∈ span p bs.length →
    s.pmm.Held x ∧ x ∉ own ∧ O.pages x = none

def Behaved (O : ObjectStore) (tr : List (Event × Nat)) : Prop :=
  ∀ fs e gs, tr = fs ++ e :: gs → ∀ O', Run Serves O fs O' → Allowed O' e.1

/-- No block of the class is large enough, and the page allocator has no run for a new region. -/
def NoRoom (s : Heap) (size : Nat) : Prop :=
  (∀ a, s.OnList (exponent (u32 size)) a → ¬s.Fits size a) ∧
    s.pmm.alloc (pagesFor (size + sizeof)) = none

def Stuck (s : Heap) : Event → Prop
  | .malloc size => s.NoRoom size
  | .calloc nobj size => s.NoRoom (nobj * size)
  | .realloc _ size => size ≠ 0 ∧ s.NoRoom size
  | .allocPages n => s.pmm.alloc n = none
  | _ => False

section
variable {own : Set Nat} {s s' s'' : Heap} {R : List Region} {L : Nat → List Nat}
  {O O' : ObjectStore} {pmm : PhysicalMemory}
  {tr tr' : List (Event × Nat)} {mmap : List LimineMemmapEntry} {ram : Mem} {e : Event}
  {p q n size : Nat} {bs : List Byte}

theorem Boots.keeps (h : Boots own pmm O) (hsane : PhysicalMemory.Sane own pmm) :
    Keeps own { pmm } [] (fun _ => []) O where
  wf := by
    refine ⟨⟨⟨hsane, ?_, ?_⟩, ?_⟩, ?_, fun _ => rfl⟩
    · rintro x ⟨r, hr, -⟩
      exact absurd hr List.not_mem_nil
    · exact ⟨fun r hr => absurd hr List.not_mem_nil, .nil⟩
    · refine ⟨fun i a => ?_, fun _ => LinkedList.dlinked_nil,
        fun _ => .nil, fun _ => rfl, ?_, fun _ _ ha => absurd ha List.not_mem_nil⟩
      · simp [tags]
      · rintro a ⟨r, hr, -⟩
        exact absurd hr List.not_mem_nil
    · exact ⟨fun r hr => absurd hr List.not_mem_nil,
        fun _ _ ha => absurd ha List.not_mem_nil,
        fun _ => rfl, fun _ => (by decide : (0 : Int) ≤ maxComplete)⟩
  objects p bs hp := absurd (h.objects p) (by simp [hp])
  known := by
    rintro t ⟨⟨r, hr, -⟩, -⟩
    exact absurd hr List.not_mem_nil
  pages x b hb := by
    obtain ⟨hheld, hown, hram⟩ := h.pages x b hb
    refine ⟨hheld, hown, ?_, hram⟩
    rintro ⟨r, hr, -⟩
    exact absurd hr List.not_mem_nil

/-- A page that was free and is no longer has been taken by the heap or by the client. -/
theorem Wf.freePages_le {R' : List Region} {r : Nat} (hwf : Wf own s R L)
    (h : Books s R (Event.pagesHeld (e, r) (strangers s R)) (draws e) s' R') :
    s.pmm.freePages.card ≤ s'.pmm.freePages.card + takes e := by
  obtain ⟨b, hgrown⟩ := h.grown
  have hnew : ∀ i ∈ s.pmm.freePages, i ∉ s'.pmm.freePages →
      4096 * i ∈ span b (4096 * draws e) ∨ 4096 * i ∈ Event.pagesHeld (e, r) (strangers s R) :=
        fun i hi hi' => by
    rw [PhysicalMemory.mem_freePages] at hi hi'
    by_cases hR : 4096 * i ∈ territory R'
    · refine .inl ((hgrown hR).resolve_left fun hmem => ?_)
      exact (hwf.held _ hmem).1.not_free hi
    · rw [← h.held]
      have hlt : 4096 * i / 4096 < s'.pmm.limit := h.limit ▸ hi.1
      exact .inr ⟨⟨hlt, by_contra fun hbit => hi' ⟨hlt, Bool.not_eq_true _ ▸ hbit⟩⟩, hR⟩
  have hnot : ∀ i ∈ s.pmm.freePages, 4096 * i ∉ strangers s R :=
    fun i hi hs => hs.1.not_free (PhysicalMemory.mem_freePages.mp hi)
  cases e with
  | allocPages n =>
    refine PhysicalMemory.card_le_of_span (p := r) fun i hi hi' => ?_
    rcases hnew i hi hi' with hin | hin | hin
    · have hdraws : draws (.allocPages n) = 0 := rfl
      rw [hdraws, mem_span] at hin
      omega
    · exact absurd hin (hnot i hi)
    · rwa [Nat.mul_comm n] at hin
  | freePages q n =>
    exact PhysicalMemory.card_le_of_span fun i hi hi' =>
      (hnew i hi hi').resolve_right fun hin => hnot i hi hin.1
  | malloc | calloc | realloc | free | write | writePage =>
    exact PhysicalMemory.card_le_of_span fun i hi hi' => (hnew i hi hi').resolve_right (hnot i hi)

theorem Accounts.step {s₀ : Heap} {R₀ : List Region} {e : Event × Nat}
    (h : Accounts own s₀ R₀ tr s O) (he : Allowed O e.1)
    (hs : HeapStep s e s') : ∃ O', Serves O e O' ∧ Accounts own s₀ R₀ (tr ++ [e]) s' O' := by
  obtain ⟨R, L, hh, hbal⟩ := h
  obtain ⟨fuel, hexec⟩ := hs
  obtain ⟨O', R', L', hserves, hh', hbooks⟩ := hh.exec_safe he fuel _ hexec
  refine ⟨O', hserves, R', L', hh', ?_, hbooks.limit.trans hbal.limit, ?_⟩
  · rw [hbooks.held, hbal.held, pagesHeldAfter, pagesHeldAfter, List.foldl_append]
    rfl
  · have htaken := hbal.taken
    have hstep : s.pmm.freePages.card ≤ s'.pmm.freePages.card + takes e.1 := hh.wf.freePages_le hbooks
    rw [List.map_append, List.sum_append, List.map_singleton, List.sum_singleton]
    omega

theorem Keeps.run (h : Keeps own s R L O) (hrun : Run HeapStep s tr s') (hgood : Behaved O tr) :
    ∃ O', Run Serves O tr O' ∧ Accounts own s R tr s' O' :=
  hrun.simulate ⟨R, L, h, rfl, rfl, le_refl _⟩ hgood fun hrel he hs => hrel.step he hs

theorem Refines.run (h : Refines own s O) (hrun : Run HeapStep s tr s') (hgood : Behaved O tr) :
    ∃ O', Run Serves O tr O' ∧ Refines own s' O' := by
  obtain ⟨R, L, hh⟩ := h
  obtain ⟨O', hserves, R', L', hh', -⟩ := hh.run hrun hgood
  exact ⟨O', hserves, R', L', hh'⟩

theorem Refines.visible (h : Refines own s O) : Visible own s O := by
  obtain ⟨R, L, hh⟩ := h
  refine ⟨fun p bs hp => ?_, fun x b hb => (hh.pages x b hb).2.2.2,
    fun p bs q cs hp hq hne => hh.apart hp hq hne, fun p bs x hp hx => ?_⟩
  · obtain ⟨t, -, rfl, ho⟩ := hh.objects p bs hp
    exact ho.stored
  · obtain ⟨t, ht, rfl, ho⟩ := hh.objects p bs hp
    have hmem := hh.wf.tiled.content_subset ht.1 (ho.bytes hx)
    obtain ⟨hheld, hown⟩ := hh.wf.held x hmem
    refine ⟨hheld, hown, ?_⟩
    by_contra hne
    obtain ⟨b, hb⟩ := Option.ne_none_iff_exists'.mp hne
    exact (hh.pages x b hb).2.2.1 hmem

theorem Boots.refines (h : Boots own pmm O) (hsane : PhysicalMemory.Sane own pmm) :
    Refines own { pmm } O :=
  ⟨[], fun _ => [], h.keeps hsane⟩

theorem Behaved.left (h : Behaved O (tr ++ tr')) : Behaved O tr := fun fs e gs heq =>
  h fs e (gs ++ tr') (by simp [heq])

theorem Behaved.right (h : Behaved O (tr ++ tr')) (hrun : Run Serves O tr O') : Behaved O' tr' :=
  fun fs e gs heq O'' hrun' =>
  h (tr ++ fs) e gs (by simp [heq]) O'' (hrun.append hrun')

/-- An event leaves the objects alone that it does not name. -/
theorem serves_frame {r : Nat} (h : Serves O (e, r) O') (hp : O.objects p = some bs)
    (hnot : ¬e.Touches p) :
    O'.objects p = some bs := by
  cases e with
  | malloc size =>
    obtain ⟨cs, -, hvac, rfl⟩ := h
    exact (ObjectStore.objects_put_of_ne (hvac.ne hp)).trans hp
  | calloc nobj size =>
    obtain ⟨hvac, rfl⟩ := h
    exact (ObjectStore.objects_put_of_ne (hvac.ne hp)).trans hp
  | realloc q size =>
    have hne : p ≠ q := fun heq => hnot heq.symm
    rw [Serves] at h
    split at h
    · obtain ⟨-, rfl⟩ := h
      exact (ObjectStore.objects_drop_of_ne hne).trans hp
    split at h
    · obtain ⟨cs, -, hvac, rfl⟩ := h
      exact (ObjectStore.objects_put_of_ne (hvac.ne hp)).trans hp
    · obtain ⟨old, cs, -, -, -, hvac, rfl⟩ := h
      exact (ObjectStore.objects_drop_of_ne hne).trans
        ((ObjectStore.objects_put_of_ne (hvac.ne hp)).trans hp)
  | free q =>
    obtain rfl : O' = O.drop q := h
    exact (ObjectStore.objects_drop_of_ne fun heq => hnot heq.symm).trans hp
  | write q i val =>
    obtain ⟨cs, -, rfl⟩ := h
    exact (Function.update_of_ne (fun heq => hnot heq.symm) ..).trans hp
  | allocPages n => exact h.1 ▸ hp
  | freePages q n => exact h.1 ▸ hp
  | writePage x val =>
    obtain rfl := h
    exact hp

theorem serves_makes (h : Serves O (e, p) O') (hmakes : e.makes = some n) :
    ∃ bs, bs.length = n ∧ O'.objects p = some bs := by
  cases e with
  | malloc size =>
    obtain rfl := Option.some.inj hmakes
    obtain ⟨bs, hlen, -, rfl⟩ := h
    exact ⟨bs, hlen, ObjectStore.objects_put_self⟩
  | calloc nobj size =>
    obtain rfl := Option.some.inj hmakes
    obtain ⟨-, rfl⟩ := h
    exact ⟨_, List.length_replicate, ObjectStore.objects_put_self⟩
  | realloc q size =>
    rw [Event.makes] at hmakes
    rw [Serves] at h
    split at hmakes
    · exact absurd hmakes (by simp)
    obtain rfl := Option.some.inj hmakes
    rw [if_neg ‹_›] at h
    split at h
    · obtain ⟨bs, hlen, -, rfl⟩ := h
      exact ⟨bs, hlen, ObjectStore.objects_put_self⟩
    · obtain ⟨old, bs, hold, hlen, -, hvac, rfl⟩ := h
      exact ⟨bs, hlen, (ObjectStore.objects_drop_of_ne (hvac.ne hold).symm).trans
        ObjectStore.objects_put_self⟩
  | free | write | allocPages | freePages | writePage => exact absurd hmakes (by simp [Event.makes])

theorem run_frame (h : Run Serves O tr O') (hp : O.objects p = some bs)
    (hnot : ∀ e ∈ tr, ¬e.1.Touches p) :
    O'.objects p = some bs := by
  induction h with
  | nil => exact hp
  | @snoc es t e u _ hs ih =>
    obtain ⟨e, r⟩ := e
    exact serves_frame (O := t) hs (ih fun e' he' => hnot e' (List.mem_append_left _ he'))
      (hnot (e, r) (by simp))

-- ---------------------------------------------------------------------------
-- When calls return
-- ---------------------------------------------------------------------------

theorem Wf.malloc_stuck (h : Wf own s R L) (hsize : size + sizeof + pageSize ≤ 2 ^ 32)
    (hroom : s.NoRoom size) :
    Safe (s.malloc size) fun _ => False := by
  have hs : sizeof = 48 := rfl
  have hps : pageSize = 4096 := rfl
  have hu : u32 (size + sizeof) = size + sizeof := Nat.mod_eq_of_lt (by omega)
  have hu32 : u32 size = size := Nat.mod_eq_of_lt (by omega)
  obtain ⟨hnone, hpages⟩ := hroom
  have hnew : s.setUp.allocateNewTag (u32 size) = none := by
    rw [hu32, allocateNewTag, hu, setUp_pmm, hpages]
    rfl
  refine Safe.bind h.setUp.search_ends.safe_iterate fun tag hfound => ?_
  have hno : ¬(tag ∈ L (exponent (u32 size)) ∧ s.setUp.Fits size tag) := by
    rintro ⟨hmem, hfit⟩
    rw [Fits, get_setUp] at hfit
    exact hnone tag (h.onList_iff.mpr hmem) hfit
  obtain ⟨rfl, -⟩ := hfound.resolve_right hno
  rw [if_pos rfl]
  refine Safe.bind (P := fun _ => False) (fun _ r hr => ?_) fun _ hfalse => hfalse.elim
  rw [ofOption, hnew] at hr
  exact absurd hr (by simp)

theorem Wf.malloc_returns (h : Wf own s R L) (hsize : size + sizeof + pageSize ≤ 2 ^ 32)
    (hroom : ¬s.NoRoom size) :
    Ends (s.malloc size) fun _ => True := by
  have hs : sizeof = 48 := rfl
  have hu32 : u32 size = size := Nat.mod_eq_of_lt (by omega)
  refine (h.malloc_ends hsize ?_).mono fun _ _ => trivial
  by_contra hno
  obtain ⟨hblocks, hpages⟩ := not_or.mp hno
  refine hroom ⟨fun a ha hfit => hblocks ⟨a, ?_, hfit⟩, Option.not_isSome_iff_eq_none.mp hpages⟩
  rw [hu32] at ha
  exact h.onList_iff.mp ha

theorem Wf.malloc_returns_iff (h : Wf own s R L) (hsize : size + sizeof + pageSize ≤ 2 ^ 32) :
    Ends (s.malloc size) (fun _ => True) ↔ ¬s.NoRoom size :=
  ⟨fun hends hroom => (h.malloc_stuck hsize hroom).not_ends hends, h.malloc_returns hsize⟩

theorem Keeps.realloc_returns_iff (h : Keeps own s R L O) (hp : p ≠ 0 → ∃ bs, O.objects p = some bs ∧
    (bs.length < 2 ^ 31 ∨ size < 2 ^ 31)) (hsize : size + sizeof + pageSize ≤ 2 ^ 32) :
    Ends (s.realloc p size) (fun _ => True) ↔ ¬(size ≠ 0 ∧ s.NoRoom size) := by
  have hs : sizeof = 48 := rfl
  rcases eq_or_ne size 0 with h0 | h0
  · rw [Heap.realloc, if_pos h0]
    refine iff_of_true (Ends.bind (h.free_spec fun hne => ?_).1 fun _ _ => ends_pure trivial)
      fun hh => hh.1 h0
    obtain ⟨bs, hbs, -⟩ := hp hne
    exact ⟨bs, hbs⟩
  rw [and_iff_right h0]
  rcases eq_or_ne p 0 with hnull | hnull
  · rw [Heap.realloc, if_neg h0, if_pos hnull]
    exact h.wf.malloc_returns_iff hsize
  · obtain ⟨old, hold, hbig⟩ := hp hnull
    rw [h.realloc_eq hold hbig (by omega) h0]
    refine ends_bind_iff (h.wf.malloc_stuck hsize) (h.wf.malloc_returns hsize)
      (h.wf.malloc_safe hsize) ?_
    rintro _ ⟨t, s', R', L', rfl, hm⟩
    obtain ⟨bs, -, -, hput, hold', -⟩ := h.reallocated hold hm
    exact (hput.free_spec fun _ => ⟨old, hold'⟩).1.bind fun _ _ => ends_pure trivial

/-- In a heap that keeps a store, every allowed event comes to an end, unless it
asks for memory that is not there. -/
theorem Refines.returns_iff (h : Refines own s O) (he : Allowed O e) :
    Ends (s.exec e) (fun _ => True) ↔ ¬s.Stuck e := by
  have hs : sizeof = 48 := rfl
  have hps : pageSize = 4096 := rfl
  obtain ⟨R, L, hh⟩ := h
  cases e with
  | malloc size => exact hh.wf.malloc_returns_iff he
  | calloc nobj size =>
    have hsize : nobj * size + sizeof + pageSize ≤ 2 ^ 32 := by
      have hlt : nobj * size < 2 ^ 31 := he
      omega
    rw [exec, Heap.calloc, calloc_size he]
    exact ends_bind_iff (hh.wf.malloc_stuck hsize) (hh.wf.malloc_returns hsize)
      (hh.wf.malloc_safe hsize)
      fun _ _ => ends_pure trivial
  | realloc p size => exact hh.realloc_returns_iff he.1 he.2
  | free p => exact iff_of_true ((hh.free_spec he).1.bind fun _ _ => ends_pure trivial) id
  | write p i val => exact iff_of_true (ends_pure trivial) id
  | allocPages n =>
    refine ends_bind_iff (P := fun _ => True) (fun hnone => fun _ r hr => ?_) (fun hsome => ?_)
      (fun _ _ _ => trivial) fun _ _ => ends_pure trivial
    · exact absurd (hnone.symm.trans hr) (by simp)
    · obtain ⟨r, hr⟩ := Option.ne_none_iff_exists'.mp hsome
      exact ends_ofOption hr trivial
  | freePages p n => exact iff_of_true (ends_pure trivial) id
  | writePage x val => exact iff_of_true (ends_pure trivial) id

theorem Stuck.alloc_eq_none (h : s.Stuck e) (he : Allowed O e) :
    1 ≤ takes e ∧ s.pmm.alloc (takes e) = none := by
  have hpages : ∀ bytes, 1 ≤ pagesFor bytes := fun bytes => by
    have hpc : pageCount = 16 := rfl
    have hge := (pagesFor_spec bytes).2.1
    omega
  cases e with
  | malloc size => exact ⟨hpages _, h.2⟩
  | calloc nobj size => exact ⟨hpages _, h.2⟩
  | realloc p size =>
    have htakes : takes (.realloc p size) = pagesFor (size + sizeof) := if_neg h.1
    rw [htakes]
    exact ⟨hpages _, h.2.2⟩
  | allocPages n => exact ⟨he, h⟩
  | free | write | freePages | writePage => exact h.elim

/-- An event comes to an end that asks for so few pages that those asked for before
cannot be in its way. -/
theorem Accounts.returns {s₀ : Heap} {R₀ : List Region} (h : Accounts own s₀ R₀ tr s O)
    (he : Allowed O e)
    (hzero : 0 ∈ pagesHeldAfter (strangers s₀ R₀) tr)
    (hroom : 1 ≤ takes e →
      s₀.pmm.limit + (tr.map fun e => takes e.1).sum <
        s₀.pmm.freePages.card + s₀.pmm.limit / (2 * takes e)) :
    Ends (s.exec e) fun _ => True := by
  obtain ⟨R, L, hh, hbal⟩ := h
  have hkeeps : Refines own s O := ⟨R, L, hh⟩
  refine (hkeeps.returns_iff he).mpr fun hstuck => ?_
  obtain ⟨hn, hnone⟩ := hstuck.alloc_eq_none he
  have htaken := hbal.taken
  have hroom := hroom hn
  rw [← hbal.held] at hzero
  rw [← hbal.limit] at hroom
  obtain ⟨q, pmm, halloc⟩ := hh.wf.sane.alloc_isSome_of_card hzero.1.not_free hn (by omega)
  exact absurd (hnone.symm.trans halloc) (by simp)

-- ---------------------------------------------------------------------------
-- From boot on
-- ---------------------------------------------------------------------------

def bootHeap (mmap : List LimineMemmapEntry) (ram : Mem) : Heap :=
  { pmm := PhysicalMemory.initializeMemory mmap ram }

abbrev bootOwn (mmap : List LimineMemmapEntry) (ram : Mem) : Set Nat :=
  (bootHeap mmap ram).pmm.bitmap.bytes (bootHeap mmap ram).pmm.limit

theorem bootHeap_refines (hm : MapOk mmap) (hfits : PhysicalMemory.Fits mmap)
    (hspace : PhysicalMemory.highestUsable mmap ≤ 2 ^ 63)
    (hO : Boots (bootOwn mmap ram) (bootHeap mmap ram).pmm O) :
    Refines (bootOwn mmap ram) (bootHeap mmap ram) O :=
  hO.refines (hfits.sane hm hspace)

theorem Behaved.nil : Behaved O [] := fun fs e gs heq => absurd heq (by simp)

theorem Behaved.snoc {e : Event × Nat} (h : Behaved O tr)
    (he : ∀ O', Run Serves O tr O' → Allowed O' e.1) :
    Behaved O (tr ++ [e]) := by
  intro fs e' gs heq
  rcases List.eq_nil_or_concat gs with rfl | ⟨gs, g, rfl⟩
  · obtain ⟨rfl, he'⟩ := List.append_inj' heq rfl
    cases he'
    exact he
  · rw [List.concat_eq_append, ← List.cons_append, ← List.append_assoc] at heq
    obtain ⟨rfl, -⟩ := List.append_inj' heq rfl
    exact h fs e' gs rfl

theorem strangers_nil : strangers s [] = {x | s.pmm.Held x} := by
  ext x
  refine and_iff_left ?_
  rintro ⟨r, hr, -⟩
  exact absurd hr List.not_mem_nil

theorem boots_empty : Boots own pmm .empty :=
  ⟨fun _ => rfl, fun _ _ h => absurd h (by simp [ObjectStore.empty])⟩

/-- 1 GiB of memory, and two framebuffers. -/
def lowMemory : List LimineMemmapEntry :=
  [⟨0x100000, 0x3ff00000, limineMemmapUsable⟩, ⟨0xfd000000, 0x1000, limineMemmapFramebuffer⟩,
    ⟨0xfe000000, 0x1000, limineMemmapFramebuffer⟩]

abbrev lowHeap : Heap := bootHeap lowMemory fun _ => 0

abbrev lowOwn : Set Nat := bootOwn lowMemory fun _ => 0

theorem lowMemory_ok : MapOk lowMemory := mapOk_of_apart (by decide) (by decide) (by decide)

theorem lowMemory_fits : PhysicalMemory.Fits lowMemory := ⟨by decide, by decide, by decide⟩

theorem lowHeap_highestAddr : lowHeap.pmm.highestAddr = 0x40000000 :=
  (PhysicalMemory.initializeMemory_highestAddr lowMemory _).trans (by decide)

theorem lowHeap_limit : lowHeap.pmm.limit = 0x40000 := by rw [PhysicalMemory.limit, lowHeap_highestAddr]

theorem lowHeap_bitmap : lowHeap.pmm.bitmap = ⟨0x100000⟩ := by
  have hcarve : PhysicalMemory.carve
      (PhysicalMemory.bitmapSize (PhysicalMemory.highestUsable lowMemory)) lowMemory =
      some (0x100000,
        [⟨0x108000, 0x3fef8000, limineMemmapUsable⟩, ⟨0xfd000000, 0x1000, limineMemmapFramebuffer⟩,
          ⟨0xfe000000, 0x1000, limineMemmapFramebuffer⟩]) := by decide
  exact (PhysicalMemory.initializeMemory_of_carve hcarve).1

theorem lowHeap_bit {i : Nat} (hi : i < 0x40000) :
    lowHeap.pmm.bitmap.get lowHeap.pmm.ram i = true ↔ i < 0x108 := by
  have hsize : 0x8000 = PhysicalMemory.bitmapSize lowHeap.pmm.highestAddr := by
    rw [lowHeap_highestAddr]; decide
  obtain ⟨-, -, -, -, -, -, -, hbits⟩ :=
    PhysicalMemory.initializeWith_spec lowMemory_ok (rfl : _ = lowHeap.pmm) hsize (by decide)
      ⟨_, List.mem_cons_self, rfl, by decide⟩
  rw [hbits i (by omega), PhysicalMemory.BitmapPage, lowHeap_bitmap, UsablePage]
  simp only [lowMemory, List.mem_cons, List.not_mem_nil, or_false, exists_eq_or_imp, exists_eq_left,
    LimineMemmapEntry.Covers, limineMemmapUsable, limineMemmapFramebuffer, true_and,
    OfNat.ofNat_ne_zero, false_and]
  omega

theorem lowHeap_freePages : lowHeap.pmm.freePages = Finset.Ico 0x108 0x40000 := by
  ext i
  rw [PhysicalMemory.freePages, Finset.mem_filter, Finset.mem_range, lowHeap_limit, Finset.mem_Ico]
  constructor
  · rintro ⟨hi, hbit⟩
    refine ⟨?_, hi⟩
    by_contra hlt
    rw [(lowHeap_bit hi).mpr (by omega)] at hbit
    exact absurd hbit (by decide)
  · rintro ⟨hge, hi⟩
    refine ⟨hi, ?_⟩
    rw [← Bool.not_eq_true, lowHeap_bit hi]
    omega

theorem lowHeap_zero_held : lowHeap.pmm.Held 0 := by
  refine ⟨?_, (lowHeap_bit (by decide)).mpr (by decide)⟩
  rw [lowHeap_limit]
  decide

theorem mem_pagesHeldAfter {P : Set Nat} {x : Nat} (hx : x ∈ P)
    (hkept : ∀ e ∈ tr, ∀ p n, e.1 ≠ .freePages p n) :
    x ∈ pagesHeldAfter P tr := by
  induction tr generalizing P with
  | nil => exact hx
  | cons e tr ih =>
    refine ih ?_ fun e' he' => hkept e' (List.mem_cons_of_mem e he')
    obtain ⟨e, r⟩ := e
    cases e with
    | allocPages n => exact .inl hx
    | freePages p n => exact absurd rfl (hkept _ List.mem_cons_self p n)
    | malloc | calloc | realloc | free | write | writePage => exact hx

structure LowRun (tr : List (Event × Nat)) (s : Heap) : Prop where
  run : Run HeapStep lowHeap tr s
  good : Behaved .empty tr
  kept : ∀ e ∈ tr, ∀ p n, e.1 ≠ .freePages p n
  few : (tr.map fun e => takes e.1).sum ≤ 64

theorem LowRun.snoc {e : Event × Nat} (h : LowRun tr s) (hs : HeapStep s e s')
    (he : ∀ O', Run Serves .empty tr O' → Allowed O' e.1) (hkeep : ∀ p n, e.1 ≠ .freePages p n)
    (hfew : (tr.map fun e => takes e.1).sum + takes e.1 ≤ 64) : LowRun (tr ++ [e]) s' where
  run := .snoc h.run hs
  good := .snoc h.good he
  kept e' he' := by
    rcases List.mem_append.mp he' with he' | he'
    · exact h.kept e' he'
    · exact List.mem_singleton.mp he' ▸ hkeep
  few := by rwa [List.map_append, List.sum_append, List.map_singleton, List.sum_singleton]

theorem LowRun.next (h : LowRun tr s) (he : ∀ O', Run Serves .empty tr O' → Allowed O' e)
    (hsmall : takes e ≤ 16) :
    ∃ r s', HeapStep s (e, r) s' := by
  have hboots : Boots lowOwn lowHeap.pmm .empty := boots_empty
  obtain ⟨O', hserves, hacc⟩ :=
    (hboots.keeps (lowMemory_fits.sane lowMemory_ok (by decide))).run h.run h.good
  have hzero : 0 ∈ pagesHeldAfter (strangers lowHeap []) tr := by
    rw [strangers_nil]
    exact mem_pagesHeldAfter lowHeap_zero_held h.kept
  have hfew := h.few
  have hends := hacc.returns (he O' hserves) hzero fun hn => ?_
  · obtain ⟨fuel, ⟨r, s'⟩, hexec, -⟩ := hends.exists_eq_some
    exact ⟨r, s', fuel, hexec⟩
  · have hwindow : 0x40000 / (2 * 16) ≤ 0x40000 / (2 * takes e) :=
      Nat.div_le_div_left (by omega) (by omega)
    rw [lowHeap_freePages, lowHeap_limit, Nat.card_Ico]
    omega

theorem free_eq_zero {r : Nat} (h : HeapStep s (.free p, r) s') : r = 0 := by
  have hzero : Safe (s.exec (.free p)) fun r => r.1 = 0 :=
    Safe.bind (P := fun _ => True) (fun _ _ _ => trivial) fun _ _ => safe_pure rfl
  obtain ⟨fuel, hexec⟩ := h
  exact hzero fuel _ hexec

/-- An object is made, written and moved, and in between pages are allocated and written. -/
theorem lowRun_realloc :
    ∃ p q r s, LowRun [(.malloc 100, p), (.allocPages 2, q), (.writePage q 5, 0), (.write p 7 1, 0),
    (.realloc p 200, r)] s := by
  have h₀ : LowRun [] lowHeap := ⟨.nil, .nil, fun _ he => absurd he List.not_mem_nil, by decide⟩
  have he₁ : ∀ O', Allowed O' (.malloc 100) := fun _ => (by decide : 100 + sizeof + pageSize ≤ 2 ^ 32)
  obtain ⟨p, s₁, hs₁⟩ := h₀.next (fun O' _ => he₁ O') (by decide)
  have h₁ := h₀.snoc hs₁ (fun O' _ => he₁ O') (fun _ _ => Event.noConfusion)
    (show 0 + 16 ≤ 64 by decide)
  have he₂ : ∀ O', Allowed O' (.allocPages 2) := fun _ => (by decide : 1 ≤ 2)
  obtain ⟨q, s₂, hs₂⟩ := h₁.next (fun O' _ => he₂ O') (by decide)
  have h₂ := h₁.snoc hs₂ (fun O' _ => he₂ O') (fun _ _ => Event.noConfusion)
    (show 16 + 2 ≤ 64 by decide)
  have he₃ : ∀ O', Run Serves .empty ([] ++ [(.malloc 100, p)] ++ [(.allocPages 2, q)]) O' →
      Allowed O' (.writePage q 5) := by
    intro O' hrun
    obtain ⟨O, -, -, hpages, -⟩ := run_snoc_iff.mp hrun
    exact (hpages q ⟨le_refl q, Nat.lt_add_of_pos_right (by decide)⟩).2
  have hs₃ : HeapStep s₂ (.writePage q 5, 0) _ := ⟨0, rfl⟩
  have h₃ := h₂.snoc hs₃ he₃ (fun _ _ => Event.noConfusion) (show 18 + 0 ≤ 64 by decide)
  generalize s₂.setRam _ = s₃ at h₃
  have he₄ : ∀ O', Run Serves .empty
      ([] ++ [(.malloc 100, p)] ++ [(.allocPages 2, q)] ++ [(.writePage q 5, 0)]) O' →
      Allowed O' (.write p 7 1) := by
    intro O' hrun
    obtain ⟨O₂, hrun, hwrite⟩ := run_snoc_iff.mp hrun
    obtain ⟨O₁, hrun, halloc⟩ := run_snoc_iff.mp hrun
    obtain ⟨O, -, hmalloc⟩ := run_snoc_iff.mp hrun
    obtain ⟨bs, hlen, hobj⟩ := serves_makes hmalloc rfl
    exact ⟨bs, serves_frame hwrite (serves_frame halloc hobj id) id, by omega⟩
  have hs₄ : HeapStep s₃ (.write p 7 1, 0) _ := ⟨0, rfl⟩
  have h₄ := h₃.snoc hs₄ he₄ (fun _ _ => Event.noConfusion) (show 18 + 0 ≤ 64 by decide)
  have he₅ : ∀ O', Run Serves .empty
      ([] ++ [(.malloc 100, p)] ++ [(.allocPages 2, q)] ++ [(.writePage q 5, 0)] ++
      [(.write p 7 1, 0)]) O' → Allowed O' (.realloc p 200) := by
    intro O' hrun
    obtain ⟨O, -, bs, -, rfl⟩ := run_snoc_iff.mp hrun
    exact ⟨fun _ => ⟨_, ObjectStore.objects_put_self, .inr (by decide)⟩, by decide⟩
  obtain ⟨r, s₅, hs₅⟩ := h₄.next he₅ (show 16 ≤ 16 by decide)
  exact ⟨p, q, r, s₅, h₄.snoc hs₅ he₅ (fun _ _ => Event.noConfusion) (show 18 + 16 ≤ 64 by decide)⟩

/-- And then it is freed, and another one of zeroes is made. -/
theorem lowRun_calloc :
    ∃ p q r c s, LowRun [(.malloc 100, p), (.allocPages 2, q), (.writePage q 5, 0), (.write p 7 1, 0),
    (.realloc p 200, r), (.free r, 0), (.calloc 10 30, c)] s := by
  obtain ⟨p, q, r, s₅, h₅⟩ := lowRun_realloc
  have he₆ : ∀ O', Run Serves .empty
      ([(.malloc 100, p), (.allocPages 2, q), (.writePage q 5, 0), (.write p 7 1, 0)] ++
      [(.realloc p 200, r)]) O' → Allowed O' (.free r) := by
    intro O' hrun _
    obtain ⟨O, -, hrealloc⟩ := run_snoc_iff.mp hrun
    have hmakes : Event.makes (.realloc p 200) = some 200 := by simp [Event.makes]
    obtain ⟨bs, -, hobj⟩ := serves_makes hrealloc hmakes
    exact ⟨bs, hobj⟩
  obtain ⟨z, s₆, hs₆⟩ := h₅.next he₆ (Nat.zero_le 16)
  obtain rfl := free_eq_zero hs₆
  have h₆ := h₅.snoc hs₆ he₆ (fun _ _ => Event.noConfusion) (show 34 + 0 ≤ 64 by decide)
  have he₇ : ∀ O', Allowed O' (.calloc 10 30) := fun _ => (by decide : 10 * 30 < 2 ^ 31)
  obtain ⟨c, s₇, hs₇⟩ := h₆.next (fun O' _ => he₇ O') (by decide)
  exact ⟨p, q, r, c, s₇,
    h₆.snoc hs₇ (fun O' _ => he₇ O') (fun _ _ => Event.noConfusion) (show 34 + 16 ≤ 64 by decide)⟩

theorem run_serves_store (hm : MapOk mmap) (hfits : PhysicalMemory.Fits mmap)
    (hspace : PhysicalMemory.highestUsable mmap ≤ 2 ^ 63)
    (hO : Boots (bootOwn mmap ram) (bootHeap mmap ram).pmm O)
    (hrun : Run HeapStep (bootHeap mmap ram) tr s) (hgood : Behaved O tr) :
    ∃ O', Run Serves O tr O' ∧ Visible (bootOwn mmap ram) s O' := by
  obtain ⟨O', hserves, hrel⟩ := (bootHeap_refines hm hfits hspace hO).run hrun hgood
  exact ⟨O', hserves, hrel.visible⟩

theorem run_serves_store_lowMemory : ∃ p q r c s,
    Run HeapStep lowHeap
      [(.malloc 100, p), (.allocPages 2, q), (.writePage q 5, 0), (.write p 7 1, 0),
        (.realloc p 200, r),
      (.free r, 0), (.calloc 10 30, c)] s ∧
    ∃ O', Run Serves .empty
      [(.malloc 100, p), (.allocPages 2, q), (.writePage q 5, 0), (.write p 7 1, 0),
      (.realloc p 200, r), (.free r, 0), (.calloc 10 30, c)] O' ∧ Visible lowOwn s O' := by
  obtain ⟨p, q, r, c, s, h⟩ := lowRun_calloc
  exact ⟨p, q, r, c, s, h.run,
    run_serves_store lowMemory_ok lowMemory_fits (by decide) boots_empty h.run h.good⟩

/-- Nobody but its holder changes an object. -/
theorem object_kept (hm : MapOk mmap) (hfits : PhysicalMemory.Fits mmap)
    (hspace : PhysicalMemory.highestUsable mmap ≤ 2 ^ 63)
    (hO : Boots (bootOwn mmap ram) (bootHeap mmap ram).pmm O)
    (hrun : Run HeapStep (bootHeap mmap ram) (tr ++ [(e, p)]) s) (hmakes : e.makes = some n)
    (hrun' : Run HeapStep s tr' s')
    (hgood : Behaved O (tr ++ [(e, p)] ++ tr')) (hnot : ∀ e ∈ tr', ¬e.1.Touches p) :
    ∀ x ∈ span p n, s'.pmm.ram x = s.pmm.ram x := by
  obtain ⟨O₁, hserves, hrel⟩ := (bootHeap_refines hm hfits hspace hO).run hrun hgood.left
  obtain ⟨O₂, hserves', hrel'⟩ := hrel.run hrun' (hgood.right hserves)
  obtain ⟨O₀, -, hlast⟩ := run_snoc_iff.mp hserves
  obtain ⟨bs, rfl, hobj⟩ := serves_makes hlast hmakes
  have hobj' := run_frame hserves' hobj hnot
  intro x hx
  rw [mem_span] at hx
  have hlt : x - p < bs.length := by omega
  have hget : bs[x - p]? = some bs[x - p] := List.getElem?_eq_getElem hlt
  have heq : p + (x - p) = x := by omega
  have hbefore := hrel.visible.objects p bs hobj _ _ hget
  have hafter := hrel'.visible.objects p bs hobj' _ _ hget
  rw [heq] at hbefore hafter
  exact hafter.trans hbefore.symm

theorem object_kept_lowMemory : ∃ p q r c q' s s',
    Run HeapStep lowHeap
      [(.malloc 100, p), (.allocPages 2, q), (.writePage q 5, 0), (.write p 7 1, 0),
        (.realloc p 200, r)] s ∧
    Run HeapStep s [(.calloc 10 30, c), (.allocPages 1, q')] s' ∧
      ∀ x ∈ span r 200, s'.pmm.ram x = s.pmm.ram x := by
  obtain ⟨p, q, r, s, h⟩ := lowRun_realloc
  have he : ∀ O', Allowed O' (.calloc 10 30) := fun _ => (by decide : 10 * 30 < 2 ^ 31)
  obtain ⟨c, s₁, hs₁⟩ := h.next (fun O' _ => he O') (by decide)
  have h₁ := h.snoc hs₁ (fun O' _ => he O') (fun _ _ => Event.noConfusion) (show 34 + 16 ≤ 64 by decide)
  have he' : ∀ O', Allowed O' (.allocPages 1) := fun _ => le_refl 1
  obtain ⟨q', s₂, hs₂⟩ := h₁.next (fun O' _ => he' O') (by decide)
  have h₂ := h₁.snoc hs₂ (fun O' _ => he' O') (fun _ _ => Event.noConfusion)
    (show 50 + 1 ≤ 64 by decide)
  have hrun : Run HeapStep s [(.calloc 10 30, c), (.allocPages 1, q')] s₂ := .cons hs₁ (.single hs₂)
  have hmade : Run HeapStep lowHeap
      ([(.malloc 100, p), (.allocPages 2, q), (.writePage q 5, 0), (.write p 7 1, 0)] ++
      [(.realloc p 200, r)]) s := h.run
  have hmakes : Event.makes (.realloc p 200) = some 200 := by simp [Event.makes]
  exact ⟨p, q, r, c, q', s, s₂, h.run, hrun,
    object_kept lowMemory_ok lowMemory_fits (by decide) boots_empty hmade hmakes
    hrun h₂.good (by simp [Event.Touches])⟩

/-- Every event that is allowed comes to an end, unless it asks for memory that is not there. -/
theorem run_ends_iff (hm : MapOk mmap) (hfits : PhysicalMemory.Fits mmap)
    (hspace : PhysicalMemory.highestUsable mmap ≤ 2 ^ 63)
    (hO : Boots (bootOwn mmap ram) (bootHeap mmap ram).pmm O)
    (hrun : Run HeapStep (bootHeap mmap ram) tr s) (hgood : Behaved O tr)
    (he : ∀ O', Run Serves O tr O' → Allowed O' e) :
    Ends (s.exec e) (fun _ => True) ↔ ¬s.Stuck e := by
  obtain ⟨O', hserves, hrel⟩ := (bootHeap_refines hm hfits hspace hO).run hrun hgood
  exact hrel.returns_iff (he O' hserves)

theorem run_ends_iff_lowMemory : ∃ p q r s,
    Run HeapStep lowHeap
      [(.malloc 100, p), (.allocPages 2, q), (.writePage q 5, 0), (.write p 7 1, 0),
        (.realloc p 200, r)] s ∧
    (Ends (s.exec (.malloc 40000)) (fun _ => True) ↔ ¬s.Stuck (.malloc 40000)) := by
  obtain ⟨p, q, r, s, h⟩ := lowRun_realloc
  exact ⟨p, q, r, s, h.run,
    run_ends_iff lowMemory_ok lowMemory_fits (by decide) boots_empty h.run h.good
    fun _ _ => (by decide : 40000 + sizeof + pageSize ≤ 2 ^ 32)⟩

end

end Heap

end LimineOS
