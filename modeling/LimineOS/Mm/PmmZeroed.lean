import LimineOS.Mm.PmmHalts

/-!
# What a block contains

Between the calls, clients write to the blocks they hold. `alloc` zeroes a block
that the second scan found and leaves one that the first scan found as it is, so
that a block reads as zero exactly when the first fit, if there is one, has
only zeros in it already (`run_delivered_iff`).
-/

namespace LimineOS

open ByteMemory Transition

namespace PhysicalMemory

inductive PmmAction
  | call (c : PmmCall)
  | write (b : Block) (x : Nat) (val : Byte)

def Session.act (st : Session) : PmmAction → Option Session
  | .call c => st.call c
  | .write b x val =>
    if b ∈ st.held ∧ b.ptr ≤ x ∧ x < b.ptr + 4096 * b.size then
      some { st with pmm := { st.pmm with ram := Function.update st.pmm.ram x val } }
    else none

/-- The block is zero, nothing outside it and the bitmap has changed, and the
bits that are newly set are its own. -/
structure Delivered (s s' : PhysicalMemory) (p n : Nat) : Prop where
  zero : ∀ x ∈ span p (4096 * n), s'.ram x = 0
  frame : Set.EqOn s'.ram s.ram (s.bitmap.bytes s.limit ∪ span p (4096 * n))ᶜ
  clear : ∀ i ∈ Block.pages ⟨p, n⟩, s.bitmap.get s.ram i = false
  bits : ∀ i < s.limit, s'.bitmap.get s'.ram i = true ↔
    s.bitmap.get s.ram i = true ∨ i ∈ Block.pages ⟨p, n⟩

section
variable {P : Pool} {s s' : PhysicalMemory} {L : Ledger Block.pages P.avail} {n p page page' : Nat}
  {st st' : Session}
  {a : PmmAction}

theorem FirstFit.unique (h : s.FirstFit n page) (h' : s.FirstFit n page') : page = page' := by
  rcases Nat.lt_trichotomy page page' with hlt | heq | hgt
  · exact absurd h.clear (h'.first page h.ge hlt)
  · exact heq
  · exact absurd h'.clear (h.first page' h'.ge hgt)

theorem alloc_delivered_iff (h : Refines P s L) (ha : s.alloc n = some (p, s')) (hn : 1 ≤ n) :
    Delivered s s' p n ↔
      ∀ page, s.FirstFit n page → ∀ x ∈ span (4096 * page) (4096 * n), s.ram x = 0 := by
  have hhigh : s.highestAddr < 2 ^ 64 := h.highestAddr ▸ P.inSpace
  have hlimit : s.limit = P.limit := by rw [limit, h.highestAddr, Pool.limit]
  have hcursor : s.lastI ≤ s.limit := hlimit ▸ h.cursor
  have hframe := (alloc_eqOn ha hn hhigh hcursor).2.2.2
  obtain ⟨page, rfl, hle, hclear, hcase⟩ := alloc_cases ha hn hhigh hcursor
  have hin := (h.clearRun hclear (hlimit ▸ hle)).1
  have hpages : Block.pages ⟨4096 * page, n⟩ = span page n := by
    rw [Block.pages, Nat.mul_div_cancel_left _ (by decide)]
  have hbits : ∀ i, s.bitmap.get (s.bitmap.setRange s.ram page n true) i = true ↔
      s.bitmap.get s.ram i = true ∨ i ∈ span page n := by
    intro i
    rw [Bitmap.get_setRange]
    split
    · rename_i hi
      exact iff_of_true rfl (.inr hi)
    · rename_i hi
      exact ⟨.inl, fun hor => hor.resolve_right hi⟩
  have hclear' : ∀ i ∈ Block.pages ⟨4096 * page, n⟩, s.bitmap.get s.ram i = false := fun i hi => by
    rw [hpages] at hi
    exact hclear i hi.1 hi.2
  rcases hcase with ⟨hfit, rfl⟩ | ⟨hnone, -, rfl⟩
  · -- the bits lie elsewhere, so the block is what it was
    have hram : ∀ x ∈ span (4096 * page) (4096 * n),
        s.bitmap.setRange s.ram page n true x = s.ram x := fun x hx =>
      s.bitmap.setRange_eqOn s.ram true hle
        (hlimit ▸ h.bitmap ▸ Set.disjoint_left.mp (P.block_disjoint_bytes hin) hx)
    constructor
    · intro hdel page' hfit' x hx
      obtain rfl := hfit.unique hfit'
      exact (hram x hx).symm.trans (hdel.zero x hx)
    · intro hzero
      refine ⟨fun x hx => (hram x hx).trans (hzero page hfit x hx), hframe, hclear', fun i _ => ?_⟩
      rw [hpages]
      exact hbits i
  · refine iff_of_true ⟨fun x hx => ?_, hframe, hclear', fun i hi => ?_⟩ fun page' hfit' =>
      absurd hfit'.clear (hnone page' hfit'.ge hfit'.le)
    · show memset _ _ _ _ x = 0
      rw [memset_apply]
      exact if_pos hx
    · show s.bitmap.get (memset _ _ _ _) i = true ↔ _
      rw [h.bitmap, P.get_memset hin (hlimit ▸ hi), hpages, ← h.bitmap]
      exact hbits i

-- ---------------------------------------------------------------------------
-- Runs
-- ---------------------------------------------------------------------------

structure Session.Kept (P : Pool) (st : Session) : Prop where
  sound : st.Sound P
  aligned : ∀ b ∈ st.held, 4096 ∣ b.ptr

theorem Session.Kept.act (h : st.Kept P) (ha : Steps Session.act st a st') : st'.Kept P := by
  cases a with
  | call c =>
    have hc : Steps Session.call st c st' := ha
    refine ⟨h.sound.call hc, ?_⟩
    cases c with
    | alloc size =>
      obtain ⟨hsize, p, s', halloc, rfl⟩ := Session.alloc_cases hc
      obtain ⟨L, hL, hr⟩ := h.sound
      obtain ⟨-, -, hdvd, -⟩ := alloc_refines hr halloc hsize
      intro b hb
      rcases List.mem_cons.mp hb with rfl | hb
      · exact hdvd
      · exact h.aligned b hb
    | free ptr size =>
      obtain ⟨-, rfl⟩ := Session.free_cases hc
      exact fun b hb => h.aligned b (List.mem_of_mem_erase hb)
  | write b x val =>
    simp only [Steps, Session.act, Option.ite_none_right_eq_some, Option.some.injEq] at ha
    obtain ⟨⟨hb, hx⟩, rfl⟩ := ha
    refine ⟨?_, h.aligned⟩
    obtain ⟨L, hL, hr⟩ := h.sound
    refine ⟨L, hL, hr.bitmap, hr.highestAddr, hr.cursor, fun i hi => ?_⟩
    -- a held block has no byte of the bitmap
    have hin : span (b.ptr / 4096) b.size ⊆ P.avail := L.inside b (hL ▸ hb)
    have hptr : 4096 * (b.ptr / 4096) = b.ptr := Nat.mul_div_cancel' (h.aligned b hb)
    have hout := P.block_disjoint_bytes hin
    rw [hptr] at hout
    have hsame : Set.EqOn (Function.update st.pmm.ram x val) st.pmm.ram (P.bitmap.bytes P.limit) :=
      fun y hy =>
      Function.update_of_ne (fun heq : y = x => Set.disjoint_left.mp hout hx (heq ▸ hy)) _ _
    rw [Bitmap.get_congr hsame hi]
    exact hr.bits i hi

/-- After any history of calls and of writes to held blocks: what `alloc` returns
is zero, with nothing else changed, exactly when the first fit, if there is one,
was zero before. -/
theorem run_delivered_iff {mmap : List LimineMemmapEntry} {ram : Mem} {acts : List PmmAction}
    (hm : MapOk mmap)
    (hcovers : (initializeMemory mmap ram).highestAddr / 4096 ≤
      8 * bitmapSize (initializeMemory mmap ram).highestAddr)
    (hfit : ∃ e ∈ mmap, e.type = limineMemmapUsable ∧
      bitmapSize (initializeMemory mmap ram).highestAddr ≤ e.length)
    (hrun : Run (Steps Session.act) ⟨initializeMemory mmap ram, []⟩ acts st) (hn : 1 ≤ n)
    (ha : st.pmm.alloc n = some (p, s')) :
    Delivered st.pmm s' p n ↔
      ∀ page, st.pmm.FirstFit n page → ∀ x ∈ span (4096 * page) (4096 * n), st.pmm.ram x = 0 := by
  obtain ⟨P, -, -, -, -, hinit⟩ := initializeWith_refines hm rfl rfl (bitmapSize_dvd _) hcovers hfit
  have hkept := hrun.invariant (I := Session.Kept P) ⟨⟨.empty, rfl, hinit⟩, by simp⟩ fun h hstep =>
    h.act hstep
  obtain ⟨L, -, hr⟩ := hkept.sound
  exact alloc_delivered_iff hr ha hn

theorem Session.act_call {c : PmmCall} (h : Steps Session.call st c st') :
    Steps Session.act st (.call c) st' := h

theorem Session.act_write {held : List Block} {b : Block} (x : Nat) (val : Byte) (hb : b ∈ held)
    (hx : b.ptr ≤ x ∧ x < b.ptr + 4096 * b.size) :
    Steps Session.act ⟨s, held⟩ (.write b x val)
      ⟨{ s with ram := Function.update s.ram x val }, held⟩ :=
  if_pos ⟨hb, hx⟩

theorem run_call {calls : List PmmCall} (h : Run (Steps Session.call) st calls st') :
    Run (Steps Session.act) st (calls.map .call) st' := by
  induction h with
  | nil => exact .nil
  | snoc _ hs ih =>
    rw [List.map_append]
    exact .snoc ih (Session.act_call hs)

end

theorem run_delivered_iff_sixteenPages : ∃ acts st p s',
    Run (Steps Session.act) ⟨initializeMemory sixteenPages fun _ => 0, []⟩ acts st ∧
      st.pmm.alloc 1 = some (p, s') ∧ Delivered st.pmm s' p 1 := by
  obtain ⟨s, hfree, hlast, hrun⟩ := sixteenPages_stranded
  have hhigh : (initializeMemory sixteenPages fun _ => 0).highestAddr = 0x10000 :=
    (sixteenPages_init _).1
  obtain ⟨p, s', ha⟩ : ∃ p s', s.alloc 1 = some (p, s') := by
    refine alloc_isSome_below ((hfree.clearRun_iff (show 2 + 1 ≤ 16 by decide)).mpr (by decide))
      (by omega) (by decide)
      (by rw [hfree.highestAddr]; decide) (by rw [hfree.limit_eq]; omega) ?_
    rw [hfree.bits 0 (by decide)]
    decide
  refine ⟨_, _, p, s', run_call hrun, ha,
    (run_delivered_iff sixteenPages_ok ?_ ?_ (run_call hrun) (by decide) ha).mpr ?_⟩
  · rw [hhigh]
    decide
  · rw [hhigh]
    exact sixteenPages_fit
  · intro page hfit
    have hge : s.lastI ≤ page := hfit.ge
    have hle : page + 1 ≤ s.limit := hfit.le
    rw [hfree.limit_eq] at hle
    omega

/-- A block comes back with the byte that its last holder wrote. -/
theorem sixteenPages_not_delivered : MapOk sixteenPages ∧ ∃ st s',
    Run (Steps Session.act) ⟨initializeMemory sixteenPages fun _ => 0, []⟩
      [.call (.alloc 2), .write ⟨0x2000, 2⟩ 0x2000 1, .call (.free 0x2000 2)] st ∧
    st.pmm.alloc 2 = some (0x2000, s') ∧ s'.ram 0x2000 = 1 ∧ ¬Delivered st.pmm s' 0x2000 2 := by
  obtain ⟨hlast₀, hfree₀⟩ := sixteenPages_freePages fun _ => 0
  obtain ⟨s₁, halloc₁, hlast₁, -, hfree₁⟩ := hfree₀.alloc 2 2 (by decide) (by decide) (by omega)
    (by decide) (by decide) (by rw [hlast₀]; decide)
  have hout : 0x2000 ∉ span 0x1000 2 := fun h => absurd h.2 (by decide)
  obtain ⟨hlast₂, hram₂, hfree₂⟩ := (hfree₁.write 1 hout).free 2 2 (by decide)
  obtain ⟨s₃, halloc₃, -, hram₃, -⟩ := hfree₂.alloc 2 2 (by decide) (by decide)
    (hlast₂.trans_le (Nat.min_le_right _ _)) (by decide) (by decide) (by rw [hlast₂, hlast₁]; decide)
  have hbyte : s₃.ram 0x2000 = 1 := by
    rw [hram₃ hout, hram₂ hout]
    exact Function.update_self 0x2000 1 s₁.ram
  have hfirst : Steps Session.call ⟨initializeMemory sixteenPages fun _ => 0, []⟩ (.alloc 2)
      ⟨s₁, [⟨0x2000, 2⟩]⟩ :=
    Session.call_alloc halloc₁ (by decide)
  have hrun := Run.cons (Session.act_call hfirst) <|
    .cons (Session.act_write 0x2000 1 List.mem_cons_self (by decide)) <|
    .single (Session.act_call (Session.call_free List.mem_cons_self))
  refine ⟨sixteenPages_ok, _, s₃, hrun, halloc₃, hbyte, fun hdel => ?_⟩
  have hzero := hdel.zero 0x2000 ⟨le_refl _, by decide⟩
  rw [hbyte] at hzero
  exact absurd hzero (by decide)

end PhysicalMemory

end LimineOS
