import LimineOS.Lib.Layout
import LimineOS.Lib.Transition
import LimineOS.Mm.HeapFree

/-!
# The clients of the heap

To its clients the heap is a store of objects, and the page allocator below it one
of bytes. What is in a store nobody changes but who holds it, and what is handed out
overlaps nothing that is held (`Serves`). A heap in memory that keeps a store serves
all calls as the store does, as long as the clients keep to the rules (`Allowed`).
-/

namespace LimineOS

open ByteMemory Fueled Tiling

open BoundaryTag (sizeof)

-- ---------------------------------------------------------------------------
-- The store
-- ---------------------------------------------------------------------------

/-- Objects by the pointers to them, and the bytes of pages by their addresses. -/
structure ObjectStore where
  objects : Nat → Option (List Byte)
  pages : Nat → Option Byte

inductive Event
  | malloc (size : Nat)
  | calloc (nobj size : Nat)
  | realloc (p size : Nat)
  | free (p : Nat)
  | write (p i : Nat) (val : Byte)
  | allocPages (n : Nat)
  | freePages (p n : Nat)
  | writePage (x : Nat) (val : Byte)

namespace ObjectStore

def empty : ObjectStore := ⟨fun _ => none, fun _ => none⟩

def Claims (O : ObjectStore) (x : Nat) : Prop :=
  (∃ p bs, O.objects p = some bs ∧ x ∈ span p bs.length) ∨ (O.pages x).isSome

def Vacant (O : ObjectStore) (p size : Nat) : Prop :=
  O.objects p = none ∧ ∀ x ∈ span p size, ¬O.Claims x

def put (O : ObjectStore) (p : Nat) (bs : List Byte) : ObjectStore :=
  { O with objects := Function.update O.objects p (some bs) }

def drop (O : ObjectStore) (p : Nat) : ObjectStore :=
  { O with objects := Function.update O.objects p none }

/-- What a new object has in it is left open. -/
def Adds (O : ObjectStore) (size p : Nat) (O' : ObjectStore) : Prop :=
  ∃ bs, bs.length = size ∧ O.Vacant p size ∧ O' = O.put p bs

variable {O : ObjectStore} {p q n : Nat} {bs cs : List Byte}

theorem put_put : (O.put p bs).put p cs = O.put p cs := by
  rw [put, put, Function.update_idem]
  rfl

theorem objects_put_self : (O.put p bs).objects p = some bs := Function.update_self ..

theorem objects_put_of_ne (hne : p ≠ q) : (O.put q cs).objects p = O.objects p :=
  Function.update_of_ne hne ..

theorem objects_drop_of_ne (hne : p ≠ q) : (O.drop q).objects p = O.objects p :=
  Function.update_of_ne hne ..

theorem Vacant.ne (h : O.Vacant q n) (hp : O.objects p = some bs) : p ≠ q := by
  rintro rfl
  exact absurd (h.1.symm.trans hp) (by simp)

end ObjectStore

def Serves (O : ObjectStore) : Event × Nat → ObjectStore → Prop
  | (.malloc size, r), O' => O.Adds size r O'
  | (.calloc nobj size, r), O' =>
    O.Vacant r (nobj * size) ∧ O' = O.put r (List.replicate (nobj * size) 0)
  | (.realloc p size, r), O' =>
    if size = 0 then r = 0 ∧ O' = O.drop p
    else if p = 0 then O.Adds size r O'
    else ∃ old bs, O.objects p = some old ∧ bs.length = size ∧ bs.take old.length = old.take size ∧
      O.Vacant r size ∧ O' = (O.put r bs).drop p
  | (.free p, _), O' => O' = O.drop p
  | (.write p i val, _), O' => ∃ bs, O.objects p = some bs ∧ O' = O.put p (bs.set i val)
  | (.allocPages n, r), O' =>
    O'.objects = O.objects ∧ (∀ x ∈ span r (n * pageSize), ¬O.Claims x ∧ (O'.pages x).isSome) ∧
      ∀ x ∉ span r (n * pageSize), O'.pages x = O.pages x
  | (.freePages p n, _), O' =>
    O'.objects = O.objects ∧ (∀ x ∈ span p (n * pageSize), O'.pages x = none) ∧
      ∀ x ∉ span p (n * pageSize), O'.pages x = O.pages x
  | (.writePage x val, _), O' => O' = { O with pages := Function.update O.pages x (some val) }

/-- What the clients owe the heap. No request is near 2 ^ 32 bytes. -/
def Allowed (O : ObjectStore) : Event → Prop
  | .malloc size => size + sizeof + pageSize ≤ 2 ^ 32
  | .calloc nobj size => nobj * size < 2 ^ 31
  | .realloc p size => (p ≠ 0 → ∃ bs, O.objects p = some bs ∧ (bs.length < 2 ^ 31 ∨ size < 2 ^ 31)) ∧
    size + sizeof + pageSize ≤ 2 ^ 32
  | .free p => p ≠ 0 → ∃ bs, O.objects p = some bs
  | .write p i _ => ∃ bs, O.objects p = some bs ∧ i < bs.length
  | .allocPages n => 1 ≤ n
  | .freePages p n => 4096 ∣ p ∧ ∀ x ∈ span p (n * pageSize), (O.pages x).isSome
  | .writePage x _ => (O.pages x).isSome

def Event.pagesHeld : Event × Nat → Set Nat → Set Nat
  | (.allocPages n, r), P => P ∪ span r (n * pageSize)
  | (.freePages p n, _), P => P \ span p (n * pageSize)
  | _, P => P

def pagesHeldAfter (P : Set Nat) (tr : List (Event × Nat)) : Set Nat :=
  tr.foldl (fun P e => Event.pagesHeld e P) P

namespace Heap

def exec (s : Heap) : Event → Fueled (Nat × Heap)
  | .malloc size => s.malloc size
  | .calloc nobj size => s.calloc nobj size
  | .realloc p size => s.realloc p size
  | .free p => do
    let s ← s.free p
    pure (0, s)
  | .write p i val => pure (0, s.setRam (Function.update s.pmm.ram (p + i) val))
  | .allocPages n => do
    let (p, pmm) ← ofOption (s.pmm.alloc n)
    pure (p, { s with pmm })
  | .freePages p n => pure (0, { s with pmm := s.pmm.free p n })
  | .writePage x val => pure (0, s.setRam (Function.update s.pmm.ram x val))

-- ---------------------------------------------------------------------------
-- Copies
-- ---------------------------------------------------------------------------

section
variable {own U : Set Nat} {s s' : Heap} {R R' : List Region} {L L' : Nat → List Nat}
  {O O' : ObjectStore} {ram : Mem}
  {a i n p q size t x : Nat} {b : Byte} {bs old : List Byte}

/-- Copying by words agrees with copying by bytes. -/
theorem liballocMemcpy_apply (h : p + n ≤ q ∨ q + n ≤ p) :
    liballocMemcpy ram p q n x = if p ≤ x ∧ x < p + n then ram (q + (x - p)) else ram x := by
  induction ram, p, q, n using liballocMemcpy.induct with
  | case1 ram p q n ih =>
    rw [liballocMemcpy, ih (by omega)]
    by_cases hin : p + 4 ≤ x ∧ x < p + 4 + n
    · rw [if_pos hin, writeLE_readLE, if_neg (by omega), if_pos (by omega)]
      exact congrArg ram (by omega)
    · rw [if_neg hin, writeLE_readLE]
      exact if_congr (by omega) rfl rfl
  | case2 ram p q n hn =>
    rw [liballocMemcpy.eq_2 _ _ _ _ hn]
    exact memcpy_apply ram (by omega) x

theorem memset_of_mem {val : Byte} (h : x ∈ span p n) : memset ram p val n x = val :=
  (memset_apply ..).trans (if_pos h)

-- ---------------------------------------------------------------------------
-- A heap that keeps a store
-- ---------------------------------------------------------------------------

structure Object (s : Heap) (t : Nat) (bs : List Byte) : Prop where
  size : s.get .size t = bs.length
  room : bs.length + sizeof ≤ s.get .realSize t
  stored : Holds s.pmm.ram (t + sizeof) bs

structure Keeps (own : Set Nat) (s : Heap) (R : List Region) (L : Nat → List Nat)
    (O : ObjectStore) : Prop where
  wf : Wf own s R L
  objects : ∀ p bs, O.objects p = some bs → ∃ t ∈ Used s R, p = t + sizeof ∧ Object s t bs
  known : ∀ t ∈ Used s R, ∃ bs, O.objects (t + sizeof) = some bs
  pages : ∀ x b, O.pages x = some b → s.pmm.Held x ∧ x ∉ own ∧ x ∉ territory R ∧ s.pmm.ram x = b

theorem Object.bytes (h : Object s t bs) : span (t + sizeof) bs.length ⊆ content s t := by
  have hroom := h.room
  exact span_subset (le_refl _) (by omega)

theorem Object.spared (h : Object s t bs) (hs : Spares own U s R s' R') (ht : t ∈ U) :
    Object s' t bs where
  size := (hs.size t ht).trans h.size
  room := (hs.realSize t ht).symm ▸ h.room
  stored := h.stored.congr fun x hx => hs.content t ht x (h.bytes hx)

theorem Keeps.object (h : Keeps own s R L O) (hp : O.objects (t + sizeof) = some bs) :
    t ∈ Used s R ∧ Object s t bs := by
  obtain ⟨u, hu, heq, hobj⟩ := h.objects _ bs hp
  obtain rfl : t = u := by omega
  exact ⟨hu, hobj⟩

theorem Keeps.objects_zero (h : Keeps own s R L O) : O.objects 0 = none := by
  by_contra hne
  obtain ⟨bs, hbs⟩ := Option.ne_none_iff_exists'.mp hne
  obtain ⟨t, -, heq, -⟩ := h.objects 0 bs hbs
  have hsize : 0 < sizeof := by decide
  omega

theorem Keeps.apart (h : Keeps own s R L O) (hp : O.objects p = some bs)
    (hq : O.objects q = some old) (hne : p ≠ q) :
    Disjoint (span p bs.length) (span q old.length) := by
  obtain ⟨t, ht, rfl, ho⟩ := h.objects p bs hp
  obtain ⟨u, hu, rfl, ho'⟩ := h.objects q old hq
  have hroom := ho.room
  have hroom' := ho'.room
  have hapart := h.wf.tiled.blocks_apart ht.1 hu.1 fun heq => hne (heq ▸ rfl)
  exact span_disjoint (by omega)

theorem Keeps.vacant (h : Keeps own s R L O) (hm : Malloced own s R size t s' R' L') :
    O.Vacant (t + sizeof) size := by
  have hroom := hm.room
  have ht : t ∈ Used s' R' := hm.used ▸ Set.mem_insert t _
  constructor
  · by_contra hne
    obtain ⟨bs, hbs⟩ := Option.ne_none_iff_exists'.mp hne
    exact hm.fresh (h.object hbs).1
  · rintro x hx (⟨q, old, hq, hxq⟩ | hpage)
    · obtain ⟨u, hu, rfl, ho⟩ := h.objects q old hq
      have hroom' := (ho.spared hm.spares hu).room
      have hu' : u ∈ Used s' R' := hm.used ▸ Set.mem_insert_of_mem t hu
      have hapart := hm.wf.tiled.blocks_apart ht.1 hu'.1 fun heq => hm.fresh (heq ▸ hu)
      rw [mem_span] at hx hxq
      omega
    · obtain ⟨b, hb⟩ := Option.isSome_iff_exists.mp hpage
      obtain ⟨hheld, hown, hout, -⟩ := h.pages x b hb
      have hmem : x ∈ content s' t := span_subset (le_refl _) (by omega) hx
      exact (hm.spares.outside x hheld hown hout).2.1 (hm.wf.tiled.content_subset ht.1 hmem)

theorem Keeps.add (h : Keeps own s R L O) (hm : Malloced own s R size t s' R' L')
    (hlen : bs.length = size)
    (hst : Holds s'.pmm.ram (t + sizeof) bs) : Keeps own s' R' L' (O.put (t + sizeof) bs) where
  wf := hm.wf
  objects p old hp := by
    rcases eq_or_ne p (t + sizeof) with rfl | hne
    · obtain rfl : bs = old := by simpa [ObjectStore.put] using hp
      exact ⟨t, hm.used ▸ Set.mem_insert t _, rfl, hm.size.trans hlen.symm, hlen ▸ hm.room, hst⟩
    · have hp' : O.objects p = some old := by
        simpa [ObjectStore.put, Function.update_of_ne hne] using hp
      obtain ⟨u, hu, rfl, ho⟩ := h.objects p old hp'
      exact ⟨u, hm.used ▸ Set.mem_insert_of_mem t hu, rfl, ho.spared hm.spares hu⟩
  known u hu := by
    rw [hm.used] at hu
    rcases hu with rfl | hu
    · exact ⟨bs, Function.update_self ..⟩
    · obtain ⟨old, hold⟩ := h.known u hu
      refine ⟨old, (Function.update_of_ne ?_ ..).trans hold⟩
      intro heq
      obtain rfl : u = t := by omega
      exact hm.fresh hu
  pages x b hb := by
    obtain ⟨hheld, hown, hout, hram⟩ := h.pages x b hb
    obtain ⟨hheld', hout', hram'⟩ := hm.spares.outside x hheld hown hout
    exact ⟨hheld', hown, hout', hram'.trans hram⟩

theorem Keeps.drop (h : Keeps own s R L O) (hf : Freed own (Used s R \ {t}) s R s' R' L') :
    Keeps own s' R' L' (O.drop (t + sizeof)) where
  wf := hf.wf
  objects p bs hp := by
    have hne : p ≠ t + sizeof := by
      rintro rfl
      simp [ObjectStore.drop] at hp
    have hp' : O.objects p = some bs := by simpa [ObjectStore.drop, Function.update_of_ne hne] using hp
    obtain ⟨u, hu, rfl, ho⟩ := h.objects p bs hp'
    have hmem : u ∈ Used s R \ {t} := ⟨hu, fun heq : u = t => hne (heq ▸ rfl)⟩
    exact ⟨u, hf.used ▸ hmem, rfl, ho.spared hf.spares hmem⟩
  known u hu := by
    rw [hf.used] at hu
    obtain ⟨bs, hbs⟩ := h.known u hu.1
    refine ⟨bs, (Function.update_of_ne ?_ ..).trans hbs⟩
    intro heq
    obtain rfl : u = t := by omega
    exact hu.2 rfl
  pages x b hb := by
    obtain ⟨hheld, hown, hout, hram⟩ := h.pages x b hb
    obtain ⟨hheld', hout', hram'⟩ := hf.spares.outside x hheld hown hout
    exact ⟨hheld', hown, hout', hram'.trans hram⟩

theorem Written.wf (hw : Written own s R L t s') (h : Wf own s R L)
    (hcount : s'.completePages = s.completePages)
    (hinit : s'.initialized = s.initialized) : Wf own s' R L where
  toShaped := hw.shaped
  balanced := h.balanced.congr h.toShaped (fun f _ a ha => hw.get f a ha) hcount
  unused hno := h.unused (hinit ▸ hno)

theorem used_congr (hget : ∀ f, ∀ a ∈ tags R, s'.get f a = s.get f a) : Used s' R = Used s R := by
  ext a
  exact and_congr_right fun ha => by rw [hget .index a ha]

theorem Keeps.object_subset (h : Keeps own s R L O) (hp : O.objects p = some bs) :
    span p bs.length ⊆ territory R := by
  obtain ⟨t, ht, rfl, ho⟩ := h.objects p bs hp
  exact fun x hx => h.wf.tiled.content_subset ht.1 (ho.bytes hx)

theorem Keeps.write (h : Keeps own s R L O) (hp : O.objects (t + sizeof) = some old)
    (hlen : bs.length = old.length)
    (hram : ∀ x ∉ span (t + sizeof) bs.length, ram x = s.pmm.ram x) (hst : Holds ram (t + sizeof) bs) :
    Keeps own (s.setRam ram) R L (O.put (t + sizeof) bs) := by
  obtain ⟨ht, ho⟩ := h.object hp
  have hw : Written own s R L t (s.setRam ram) :=
    h.wf.toShaped.write ht.1 fun x hx => hram x fun hmem => hx (ho.bytes (hlen ▸ hmem))
  have hused := used_congr hw.get
  refine ⟨hw.wf h.wf rfl rfl, fun p cs hcs => ?_, fun u hu => ?_, fun x b hb => ?_⟩
  · rcases eq_or_ne p (t + sizeof) with rfl | hne
    · obtain rfl : bs = cs := by simpa [ObjectStore.put] using hcs
      refine ⟨t, hused ▸ ht, rfl, ?_, ?_, hst⟩
      · rw [hw.get _ t ht.1, hlen]
        exact ho.size
      · rw [hw.get _ t ht.1, hlen]
        exact ho.room
    · have hcs' : O.objects p = some cs := by
        simpa [ObjectStore.put, Function.update_of_ne hne] using hcs
      obtain ⟨u, hu, rfl, ho'⟩ := h.objects p cs hcs'
      exact ⟨u, hused ▸ hu, rfl, ho'.spared hw.spares ⟨hu, fun heq : u = t => hne (heq ▸ rfl)⟩⟩
  · rcases eq_or_ne u t with rfl | hut
    · exact ⟨bs, Function.update_self ..⟩
    · obtain ⟨cs, hcs⟩ := h.known u (hused ▸ hu)
      exact ⟨cs, (Function.update_of_ne (by omega) ..).trans hcs⟩
  · obtain ⟨hheld, hown, hout, hram'⟩ := h.pages x b hb
    obtain ⟨hheld', hout', hsame⟩ := hw.spares.outside x hheld hown hout
    exact ⟨hheld', hown, hout', hsame.trans hram'⟩

/-- Bytes outside the heap change, or the page allocator hands them out or takes them back. -/
theorem Wf.elsewhere {pmm : PhysicalMemory} (h : Wf own s R L) (hsane : PhysicalMemory.Sane own pmm)
    (hkeep : ∀ x ∈ territory R, pmm.Held x ∧ pmm.ram x = s.pmm.ram x) :
    Wf own { s with pmm } R L ∧ ∀ f, ∀ a ∈ tags R, Heap.get { s with pmm } f a = s.get f a := by
  have hget : ∀ f, ∀ a ∈ tags R, Heap.get { s with pmm } f a = s.get f a :=
    fun f a ha => readLE_congr fun x hx =>
    (hkeep x (h.tiled.header_subset ha (span_subset (Nat.le_add_right a f.offset)
      (by have := BoundaryTag.fits f; omega) hx))).2
  have hlisted : Listed (Heap.get { s with pmm }) s.freePages (tags R) L :=
    h.listed.transfer (fun i a ha => ((h.listed.mem i a).mp ha).1) (fun a ha => .inl ha)
      (fun a ha _ => hget _ a ha)
      (fun a ha _ => hget _ a ha) fun a ha _ => hget _ a ha
  have htiled : Tiled (Heap.get { s with pmm }) R := h.tiled.congr (hget _) (hget _) (hget _) (hget _)
  have hshaped : Shaped own { s with pmm } R L :=
    ⟨⟨hsane, fun x hx => ⟨(hkeep x hx).1, (h.held x hx).2⟩, htiled⟩, hlisted⟩
  exact ⟨⟨hshaped, h.balanced.congr h.toShaped (fun f _ a ha => hget f a ha) rfl, h.unused⟩, hget⟩

theorem Keeps.elsewhere {pmm : PhysicalMemory} {pages : Nat → Option Byte} (h : Keeps own s R L O)
    (hsane : PhysicalMemory.Sane own pmm)
    (hkeep : ∀ x ∈ territory R, pmm.Held x ∧ pmm.ram x = s.pmm.ram x)
    (hpages : ∀ x b, pages x = some b → pmm.Held x ∧ x ∉ own ∧ x ∉ territory R ∧ pmm.ram x = b) :
    Keeps own { s with pmm } R L { O with pages } := by
  obtain ⟨hwf, hget⟩ := h.wf.elsewhere hsane hkeep
  have hused := used_congr hget
  refine ⟨hwf, fun p bs hp => ?_, fun t ht => h.known t (hused ▸ ht), hpages⟩
  obtain ⟨t, ht, rfl, ho⟩ := h.objects p bs hp
  refine ⟨t, hused ▸ ht, rfl, (hget _ t ht.1).trans ho.size, (hget _ t ht.1).symm ▸ ho.room, ?_⟩
  exact ho.stored.congr fun x hx => (hkeep x (h.wf.tiled.content_subset ht.1 (ho.bytes hx))).2

theorem Keeps.untouched {pmm : PhysicalMemory} (h : Keeps own s R L O)
    (hg : PhysicalMemory.Grow own ∅ s.pmm pmm) :
    (∀ x ∈ territory R, pmm.Held x ∧ pmm.ram x = s.pmm.ram x) ∧
      ∀ x b, O.pages x = some b → pmm.Held x ∧ x ∉ own ∧ x ∉ territory R ∧ pmm.ram x = b := by
  refine ⟨fun x hx => ?_, fun x b hb => ?_⟩
  · obtain ⟨hheld, hown⟩ := h.wf.held x hx
    exact ⟨hg.held x hheld, hg.ram x hheld hown (Set.notMem_empty x)⟩
  · obtain ⟨hheld, hown, hout, hram⟩ := h.pages x b hb
    exact ⟨hg.held x hheld, hown, hout, (hg.ram x hheld hown (Set.notMem_empty x)).trans hram⟩

theorem Keeps.claims (h : Keeps own s R L O) (hx : O.Claims x) : s.pmm.Held x := by
  rcases hx with ⟨p, bs, hp, hx⟩ | hpage
  · obtain ⟨t, ht, rfl, ho⟩ := h.objects p bs hp
    exact (h.wf.held x (h.wf.tiled.content_subset ht.1 (ho.bytes hx))).1
  · obtain ⟨b, hb⟩ := Option.isSome_iff_exists.mp hpage
    exact (h.pages x b hb).1

-- ---------------------------------------------------------------------------
-- Events
-- ---------------------------------------------------------------------------

/-- What is held and is not the heap's. -/
def strangers (s : Heap) (R : List Region) : Set Nat := {x | s.pmm.Held x ∧ x ∉ territory R}

theorem Spares.strangers_eq (h : Spares own U s R s' R') (hwf : Wf own s' R' L') :
    strangers s' R' = strangers s R := by
  ext x
  refine ⟨fun ⟨hx, hout⟩ => h.others x hx hout, fun ⟨hx, hout⟩ => ?_⟩
  by_cases hown : x ∈ own
  · -- the bitmap's own pages are never free
    have hlimit : x / 4096 < s'.pmm.limit := h.limit ▸ hx.1
    have hbit : s'.pmm.bitmap.get s'.pmm.ram (x / 4096) = true := by
      by_contra hclear
      exact hwf.sane.apart x ⟨hlimit, Bool.not_eq_true _ ▸ hclear⟩ hown
    exact ⟨⟨hlimit, hbit⟩, fun hR => (hwf.held x hR).2 hown⟩
  · obtain ⟨hx', hout', -⟩ := h.outside x hx hown hout
    exact ⟨hx', hout'⟩

/-- Of what is held `P` is not the heap's, which has taken at most `n` pages. -/
structure Books (s : Heap) (R : List Region) (P : Set Nat) (n : Nat) (s' : Heap)
    (R' : List Region) : Prop where
  held : strangers s' R' = P
  limit : s'.pmm.limit = s.pmm.limit
  grown : ∃ b, territory R' ⊆ territory R ∪ span b (4096 * n)

theorem Books.of_subset {P : Set Nat} (hP : strangers s' R' = P) (hlimit : s'.pmm.limit = s.pmm.limit)
    (hsub : territory R' ⊆ territory R) : Books s R P n s' R' :=
  ⟨hP, hlimit, 0, hsub.trans Set.subset_union_left⟩

theorem Books.trans {P : Set Nat} {R'' : List Region} {s'' : Heap} (h : Books s R P n s' R')
    (h' : Books s' R' (strangers s' R') 0 s'' R'') : Books s R P n s'' R'' := by
  obtain ⟨b, hb⟩ := h.grown
  obtain ⟨c, hc⟩ := h'.grown
  refine ⟨h'.held.trans h.held, h'.limit.trans h.limit, b, fun x hx => ?_⟩
  rcases hc hx with hx | hx
  · exact hb hx
  · rw [mem_span] at hx
    omega

theorem Malloced.books (h : Malloced own s R size t s' R' L') :
    Books s R (strangers s R) (pagesFor (size + sizeof)) s' R' :=
  ⟨h.spares.strangers_eq h.wf, h.spares.limit, h.grown⟩

theorem Freed.books (h : Freed own U s R s' R' L') : Books s R (strangers s R) 0 s' R' :=
  .of_subset (h.spares.strangers_eq h.wf) h.spares.limit h.within

theorem Wf.books_write (h : Wf own s R L) (hram : ∀ x ∈ own, ram x = s.pmm.ram x) :
    Books s R (strangers s R) n (s.setRam ram) R :=
  .of_subset (Set.ext fun _ => and_congr_left fun _ => h.sane.held_write hram) rfl subset_rfl

theorem Keeps.books_write (h : Keeps own s R L O) (hp : O.objects p = some bs)
    (hram : ∀ x ∉ span p bs.length, ram x = s.pmm.ram x) :
    Books s R (strangers s R) n (s.setRam ram) R :=
  h.wf.books_write fun x hx => hram x fun hmem => (h.wf.held x (h.object_subset hp hmem)).2 hx

/-- How many pages the heap takes for an event, at most. -/
def draws : Event → Nat
  | .malloc size => pagesFor (size + sizeof)
  | .calloc nobj size => pagesFor (nobj * size + sizeof)
  | .realloc _ size => if size = 0 then 0 else pagesFor (size + sizeof)
  | _ => 0

/-- What an event leaves behind. The heap takes and gives back its own pages only. -/
def Served (own : Set Nat) (s : Heap) (R : List Region) (O : ObjectStore) (e : Event)
    (r : Nat × Heap) : Prop :=
  ∃ O' R' L', Serves O (e, r.1) O' ∧ Keeps own r.2 R' L' O' ∧
    Books s R (Event.pagesHeld (e, r.1) (strangers s R)) (draws e) r.2 R'

theorem Keeps.malloc (h : Keeps own s R L O) (hm : Malloced own s R size t s' R' L') :
    Keeps own s' R' L' (O.put (t + sizeof) (loadBytes s'.pmm.ram (t + sizeof) size)) :=
  h.add hm length_loadBytes holds_loadBytes

theorem Keeps.malloc_safe (h : Keeps own s R L O) (hsize : size + sizeof + pageSize ≤ 2 ^ 32) :
    Safe (s.malloc size) fun r => ∃ O' R' L', O.Adds size r.1 O' ∧ Keeps own r.2 R' L' O' ∧
      Books s R (strangers s R) (pagesFor (size + sizeof)) r.2 R' := by
  refine (h.wf.malloc_safe hsize).mono ?_
  rintro _ ⟨t, s', R', L', rfl, hm⟩
  exact ⟨_, R', L', ⟨_, length_loadBytes, h.vacant hm, rfl⟩, h.malloc hm, hm.books⟩

theorem Keeps.free_spec (h : Keeps own s R L O) (hp : p ≠ 0 → ∃ bs, O.objects p = some bs) :
    Ends (s.free p)
      (fun s' => ∃ R' L', Keeps own s' R' L' (O.drop p) ∧ Books s R (strangers s R) 0 s' R') ∧
      Safe (s.free p) fun s' =>
        ∃ R' L', Keeps own s' R' L' (O.drop p) ∧ Books s R (strangers s R) 0 s' R' := by
  rcases eq_or_ne p 0 with rfl | hne
  · have hdrop : O.drop 0 = O := by
      rw [ObjectStore.drop, Function.update_eq_self_iff.mpr h.objects_zero.symm]
    have hbooks : Books s R (strangers s R) 0 s R := .of_subset rfl rfl subset_rfl
    rw [hdrop, Heap.free, if_pos rfl]
    exact ⟨ends_pure ⟨R, L, h, hbooks⟩, safe_pure ⟨R, L, h, hbooks⟩⟩
  · obtain ⟨bs, hbs⟩ := hp hne
    obtain ⟨t, ht, rfl, -⟩ := h.objects p bs hbs
    have hpost : ∀ s', (∃ R' L', Freed own (Used s R \ {t}) s R s' R' L') →
        ∃ R' L', Keeps own s' R' L' (O.drop (t + sizeof)) ∧ Books s R (strangers s R) 0 s' R' := by
      rintro s' ⟨R', L', hf⟩
      exact ⟨R', L', h.drop hf, hf.books⟩
    exact ⟨(h.wf.free_spec ht).1.mono hpost, (h.wf.free_spec ht).2.mono hpost⟩

theorem calloc_size (h : n < 2 ^ 31) : signExtend32 (u32 n) = n := by
  have hlt : n < 2 ^ 32 := by omega
  rw [u32, Nat.mod_eq_of_lt hlt, signExtend32, if_pos h]

theorem Keeps.calloc_safe {nobj : Nat} (h : Keeps own s R L O) (hsize : nobj * size < 2 ^ 31) :
    Safe (s.calloc nobj size) (Served own s R O (.calloc nobj size)) := by
  have hsz : sizeof = 48 := rfl
  rw [Heap.calloc, calloc_size hsize]
  refine Safe.bind (h.wf.malloc_safe (by omega)) ?_
  rintro _ ⟨t, s', R', L', rfl, hm⟩
  have hnew := h.malloc hm
  have hout : ∀ x ∉ span (t + sizeof) (nobj * size),
      memset s'.pmm.ram (t + sizeof) 0 (nobj * size) x = s'.pmm.ram x :=
    fun x hx => memset_eqOn _ _ _ _ hx
  have hzero : Keeps own (s'.setRam (memset s'.pmm.ram (t + sizeof) 0 (nobj * size))) R' L'
      (O.put (t + sizeof) (List.replicate (nobj * size) 0)) := by
    rw [← ObjectStore.put_put]
    refine hnew.write ObjectStore.objects_put_self (by rw [List.length_replicate, length_loadBytes])
      ?_ fun i b hb => ?_
    · rwa [List.length_replicate]
    · obtain ⟨hi, rfl⟩ := List.getElem?_eq_some_iff.mp hb
      rw [List.length_replicate] at hi
      rw [memset_of_mem ⟨by omega, by omega⟩, List.getElem_replicate]
  refine safe_pure ⟨_, R', L', ⟨h.vacant hm, rfl⟩, hzero, hm.books.trans ?_⟩
  exact hnew.books_write ObjectStore.objects_put_self (by rwa [length_loadBytes])

theorem realloc_copied (hlen : a < 2 ^ 32) (hsize : size < 2 ^ 32) (hbig : a < 2 ^ 31 ∨ size < 2 ^ 31) :
    (if signExtend32 a > size then signExtend32 (u32 size) else signExtend32 a) = min a size := by
  rw [u32, Nat.mod_eq_of_lt hsize]
  unfold signExtend32
  split_ifs <;> omega

theorem copied_bytes (hlen : bs.length = size) (hst : Holds ram q old)
    (hapart : Disjoint (span p size) (span q old.length))
    (hbs : bs = loadBytes (liballocMemcpy ram p q (min old.length size)) p size) :
    bs.take old.length = old.take size ∧
      ∀ x ∉ span p size, liballocMemcpy ram p q (min old.length size) x = ram x := by
  rcases Nat.eq_zero_or_pos (min old.length size) with hzero | hpos
  · have hcopy : liballocMemcpy ram p q 0 = ram := by rw [liballocMemcpy.eq_2 _ _ _ _ (by simp), memcpy]
    rw [hzero, hcopy]
    refine ⟨?_, fun _ _ => rfl⟩
    have hnil : (bs.take old.length).length = 0 ∧ (old.take size).length = 0 := by
      rw [List.length_take, List.length_take]
      omega
    rw [List.length_eq_zero_iff.mp hnil.1, List.length_eq_zero_iff.mp hnil.2]
  · have hsep : p + min old.length size ≤ q ∨ q + min old.length size ≤ p := by
      by_contra hno
      have hnot : max p q ∈ span p size → max p q ∉ span q old.length :=
        fun hx => Set.disjoint_left.mp hapart hx
      exact hnot ⟨by omega, by omega⟩ ⟨by omega, by omega⟩
    constructor
    · refine List.ext_getElem? fun i => ?_
      rw [List.getElem?_take, List.getElem?_take]
      by_cases hi : i < old.length ∧ i < size
      · rw [if_pos hi.1, if_pos hi.2, List.getElem?_eq_getElem hi.1, hbs, loadBytes, List.getElem?_map,
          List.getElem?_range hi.2, Option.map_some, liballocMemcpy_apply hsep, if_pos (by omega),
          Nat.add_sub_cancel_left, hst i _ (List.getElem?_eq_getElem hi.1)]
      · have hout : i < old.length → bs[i]? = none := fun hi' => List.getElem?_eq_none (by omega)
        have hout' : i < size → old[i]? = none := fun hi' => List.getElem?_eq_none (by omega)
        split_ifs with h₁ h₂ <;> simp_all
    · intro x hx
      rw [mem_span] at hx
      rw [liballocMemcpy_apply hsep, if_neg (by omega)]

/-- `realloc` before the old object goes. -/
theorem Keeps.reallocated (h : Keeps own s R L O) (hold : O.objects q = some old)
    (hm : Malloced own s R size t s' R' L') :
    ∃ bs, bs.length = size ∧ bs.take old.length = old.take size ∧
      Keeps own (s'.setRam (liballocMemcpy s'.pmm.ram (t + sizeof) q (min old.length size))) R' L'
        (O.put (t + sizeof) bs) ∧
      (O.put (t + sizeof) bs).objects q = some old ∧
      Books s R (strangers s R) (pagesFor (size + sizeof))
        (s'.setRam (liballocMemcpy s'.pmm.ram (t + sizeof) q (min old.length size))) R' := by
  have hnew := h.malloc hm
  have hne : q ≠ t + sizeof := by
    rintro rfl
    exact hm.fresh (h.object hold).1
  have hkeep : ∀ bs, (O.put (t + sizeof) bs).objects q = some old :=
    fun bs => (Function.update_of_ne hne ..).trans hold
  obtain ⟨u, -, rfl, ho⟩ := hnew.objects q old (hkeep _)
  have hapart := hnew.apart (Function.update_self ..) (hkeep _) hne.symm
  rw [length_loadBytes] at hapart
  obtain ⟨hcopy, hram⟩ := copied_bytes length_loadBytes ho.stored hapart rfl
  generalize liballocMemcpy s'.pmm.ram (t + sizeof) (u + sizeof) (min old.length size) = ram
    at hcopy hram ⊢
  refine ⟨loadBytes ram (t + sizeof) size, length_loadBytes, hcopy, ?_, hkeep _, hm.books.trans ?_⟩
  · rw [← ObjectStore.put_put]
    refine hnew.write (Function.update_self ..) ?_ ?_ holds_loadBytes
    · rw [length_loadBytes, length_loadBytes]
    · rwa [length_loadBytes]
  · exact hnew.books_write ObjectStore.objects_put_self (by rwa [length_loadBytes])

theorem Keeps.realloc_eq (h : Keeps own s R L O) (hold : O.objects p = some old)
    (hbig : old.length < 2 ^ 31 ∨ size < 2 ^ 31)
    (hsize : size < 2 ^ 32) (h0 : size ≠ 0) :
    s.realloc p size = (do
      let (ptr, s) ← s.malloc size
      let s ← (s.setRam (liballocMemcpy s.pmm.ram ptr p (min old.length size))).free p
      pure (ptr, s)) := by
  obtain ⟨t, ht, rfl, ho⟩ := h.objects p old hold
  have hlt : old.length < 2 ^ 32 := ho.size ▸ get_lt s .size t
  have hne : t + sizeof ≠ 0 := Nat.ne_of_gt (Nat.add_pos_right t (by decide))
  rw [Heap.realloc, if_neg h0, if_neg hne, h.wf.subU64_sizeof ht.1, ho.size]
  simp only [realloc_copied hlt hsize hbig]

theorem Keeps.realloc_safe (h : Keeps own s R L O) (hp : p ≠ 0 → ∃ bs, O.objects p = some bs ∧
    (bs.length < 2 ^ 31 ∨ size < 2 ^ 31)) (hsize : size + sizeof + pageSize ≤ 2 ^ 32) :
    Safe (s.realloc p size) (Served own s R O (.realloc p size)) := by
  have hps : pageSize = 4096 := rfl
  rcases eq_or_ne size 0 with h0 | h0
  · rw [Heap.realloc, if_pos h0]
    refine Safe.bind (h.free_spec fun hne => ?_).2 fun s' => ?_
    · obtain ⟨bs, hbs, -⟩ := hp hne
      exact ⟨bs, hbs⟩
    · rintro ⟨R', L', hdrop, hbooks⟩
      exact safe_pure ⟨_, R', L',
        by simp [Serves, h0], hdrop, (if_pos h0 : draws (.realloc p size) = 0) ▸ hbooks⟩
  have hdraws : draws (.realloc p size) = pagesFor (size + sizeof) := if_neg h0
  rcases eq_or_ne p 0 with hnull | hnull
  · rw [Heap.realloc, if_neg h0, if_pos hnull]
    refine (h.malloc_safe hsize).mono ?_
    rintro r ⟨O', R', L', hadds, hholds, hbooks⟩
    exact ⟨O', R', L', by simpa [Serves, h0, hnull] using hadds, hholds, hdraws ▸ hbooks⟩
  · obtain ⟨old, hold, hbig⟩ := hp hnull
    rw [h.realloc_eq hold hbig (by omega) h0]
    refine Safe.bind (h.wf.malloc_safe hsize) ?_
    rintro _ ⟨t, s', R', L', rfl, hm⟩
    obtain ⟨bs, hlen, hcopy, hput, hold', hbooks⟩ := h.reallocated hold hm
    refine Safe.bind (hput.free_spec fun _ => ⟨old, hold'⟩).2 fun s'' => ?_
    rintro ⟨R'', L'', hdrop, hbooks'⟩
    refine safe_pure ⟨_, R'', L'', ?_, hdrop, hdraws ▸ hbooks.trans hbooks'⟩
    rw [Serves, if_neg h0, if_neg hnull]
    exact ⟨old, bs, hold, hlen, hcopy, h.vacant hm, rfl⟩

theorem Keeps.write_safe (h : Keeps own s R L O) (hp : O.objects p = some bs) (hi : i < bs.length) :
    Served own s R O (.write p i b) (0, s.setRam (Function.update s.pmm.ram (p + i) b)) := by
  have hout : ∀ x ∉ span p bs.length, Function.update s.pmm.ram (p + i) b x = s.pmm.ram x :=
    fun x hx => by
    rw [mem_span] at hx
    exact Function.update_of_ne (by omega) ..
  refine ⟨_, R, L, ⟨bs, hp, rfl⟩, ?_, h.books_write hp hout⟩
  obtain ⟨t, ht, rfl, ho⟩ := h.objects p bs hp
  refine h.write hp (List.length_set ..) (by rwa [List.length_set]) fun j c hc => ?_
  · rcases eq_or_ne i j with rfl | hij
    · rw [List.getElem?_set_self hi, Option.some.injEq] at hc
      rw [Function.update_self, hc]
    · rw [List.getElem?_set_ne hij] at hc
      rw [Function.update_of_ne (by omega)]
      exact ho.stored j c hc

theorem Keeps.allocPages {pmm : PhysicalMemory} (h : Keeps own s R L O) (hn : 1 ≤ n)
    (hp : s.pmm.alloc n = some (p, pmm)) :
    Served own s R O (.allocPages n) (p, { s with pmm }) := by
  have hps : n * pageSize = 4096 * n := Nat.mul_comm ..
  have hal := h.wf.sane.alloc hn hp
  obtain ⟨hheap, hpages⟩ := h.untouched hal.grow
  have hfree : ∀ x ∈ span p (n * pageSize), s.pmm.Free x := fun x hx => hal.free x (hps ▸ hx)
  have hout : ∀ x ∈ span p (n * pageSize), x ∉ territory R :=
    fun x hx hxR => (h.wf.held x hxR).1.not_free (hfree x hx)
  refine ⟨{ O with pages := fun x =>
      if p ≤ x ∧ x < p + n * pageSize then some (pmm.ram x) else O.pages x }, R, L, ?_,
    h.elsewhere hal.sane hheap fun x b hb => ?_, .of_subset ?_ hal.grow.limit subset_rfl⟩
  · refine ⟨rfl, fun x hx => ⟨fun hcl => (h.claims hcl).not_free (hfree x hx), ?_⟩, fun x hx => ?_⟩
    · simp only [if_pos (mem_span.mp hx), Option.isSome_some]
    · simp only [if_neg (mem_span.not.mp hx)]
  · split at hb
    · rename_i hin
      have hx : x ∈ span p (n * pageSize) := mem_span.mpr hin
      exact ⟨hal.held x (hps ▸ hx), h.wf.sane.apart x (hfree x hx), hout x hx, Option.some.inj hb⟩
    · exact hpages x b hb
  · ext x
    constructor
    · rintro ⟨hheld, hxR⟩
      by_cases hx : x ∈ span p (n * pageSize)
      · exact .inr hx
      · exact .inl ⟨hal.held_of_not_mem hheld (hps ▸ hx), hxR⟩
    · rintro (⟨hheld, hxR⟩ | hx)
      · exact ⟨hal.grow.held x hheld, hxR⟩
      · exact ⟨hal.held x (hps ▸ hx), hout x hx⟩

theorem Keeps.freePages (h : Keeps own s R L O) (hp : 4096 ∣ p)
    (hin : ∀ x ∈ span p (n * pageSize), (O.pages x).isSome) :
    Served own s R O (.freePages p n) (0, { s with pmm := s.pmm.free p n }) := by
  have hps : n * pageSize = 4096 * n := Nat.mul_comm ..
  have hpage : ∀ x ∈ span p (4096 * n), s.pmm.Held x ∧ x ∉ own ∧ x ∉ territory R := fun x hx => by
    obtain ⟨b, hb⟩ := Option.isSome_iff_exists.mp (hin x (hps ▸ hx))
    obtain ⟨hheld, hown, hout, -⟩ := h.pages x b hb
    exact ⟨hheld, hown, hout⟩
  obtain ⟨hsane, hram, hkeep⟩ :=
    h.wf.sane.release hp (fun x hx => (hpage x hx).1) fun x hx => (hpage x hx).2.1
  refine ⟨{ O with pages := fun x => if p ≤ x ∧ x < p + n * pageSize then none else O.pages x }, R,
    L, ?_, h.elsewhere hsane (fun x hx => ?_) fun x b hb => ?_, .of_subset ?_ rfl subset_rfl⟩
  · refine ⟨rfl, fun x hx => ?_, fun x hx => ?_⟩
    · simp only [if_pos (mem_span.mp hx)]
    · simp only [if_neg (mem_span.not.mp hx)]
  · obtain ⟨hheld, hown⟩ := h.wf.held x hx
    exact ⟨(hkeep x).mpr ⟨hheld, fun hxp => (hpage x hxp).2.2 hx⟩, hram x hown⟩
  · split at hb
    · exact absurd hb (by simp)
    · rename_i hnot
      obtain ⟨hheld, hown, hout, hsame⟩ := h.pages x b hb
      exact ⟨(hkeep x).mpr ⟨hheld, fun hxp => hnot (mem_span.mp (hps ▸ hxp))⟩, hown, hout,
        (hram x hown).trans hsame⟩
  · ext x
    refine (and_congr_left fun _ => hkeep x).trans ?_
    rw [Event.pagesHeld, hps]
    exact and_right_comm

theorem Keeps.writePage (h : Keeps own s R L O) (hx : (O.pages x).isSome) :
    Served own s R O (.writePage x b) (0, s.setRam (Function.update s.pmm.ram x b)) := by
  obtain ⟨c, hc⟩ := Option.isSome_iff_exists.mp hx
  obtain ⟨hheld, hown, hout, -⟩ := h.pages x c hc
  have hram : ∀ y ∉ ({x} : Set Nat), Function.update s.pmm.ram x b y = s.pmm.ram y :=
    fun y hy => Function.update_of_ne hy ..
  obtain ⟨hsane, hgrow⟩ := h.wf.sane.write hram (fun y hy => hy ▸ hheld) fun y hy => hy ▸ hown
  refine ⟨_, R, L, rfl,
    h.elsewhere hsane (fun y hy => ⟨hgrow.held y (h.wf.held y hy).1, hram y ?_⟩) fun y d hd => ?_,
    h.wf.books_write fun y hy => hram y ?_⟩
  · rintro rfl
    exact hout hy
  · rcases eq_or_ne y x with rfl | hne
    · rw [Function.update_self] at hd
      exact ⟨hgrow.held y hheld, hown, hout, (Function.update_self ..).trans (Option.some.inj hd)⟩
    · rw [Function.update_of_ne hne] at hd
      obtain ⟨hheld', hown', hout', hsame⟩ := h.pages y d hd
      exact ⟨hgrow.held y hheld', hown', hout', (hram y hne).trans hsame⟩
  · rintro rfl
    exact hown hy

theorem Keeps.exec_safe {e : Event} (h : Keeps own s R L O) (he : Allowed O e) :
    Safe (s.exec e) (Served own s R O e) := by
  cases e with
  | malloc size => exact h.malloc_safe he
  | calloc nobj size => exact h.calloc_safe he
  | realloc p size => exact h.realloc_safe he.1 he.2
  | free p =>
    refine Safe.bind (h.free_spec he).2 fun s' => ?_
    rintro ⟨R', L', hdrop, hbooks⟩
    exact safe_pure ⟨_, R', L', rfl, hdrop, hbooks⟩
  | write p i val =>
    obtain ⟨bs, hbs, hi⟩ := he
    exact safe_pure (h.write_safe hbs hi)
  | allocPages n =>
    refine Safe.bind (P := fun r => s.pmm.alloc n = some r) (fun _ _ hr => hr) ?_
    rintro ⟨p, pmm⟩ hr
    exact safe_pure (h.allocPages he hr)
  | freePages p n => exact safe_pure (h.freePages he.1 he.2)
  | writePage x val => exact safe_pure (h.writePage he)

end

end Heap

end LimineOS
