import LimineOS.Mm.BitmapFits
import LimineOS.Mm.KernelSpace

/-!
# The direct map

The kernel reaches a physical byte through `hhdm.offset`. `kernelDir` maps the
low 4 GiB there, with the framebuffer mapped over it, while the allocator hands
out every usable page. `run_reaches_iff` says for which pages the two agree.
-/

namespace LimineOS

open ByteMemory PhysicalMemory Transition

namespace VirtualMemory

/-- A walk of `hhdm.offset + a` ends at byte `a`, with write permission. -/
def Reaches (ram : Mem) (dir : Nat) (hhdmOffset : BitVec 64) (a : Nat) : Prop :=
  ∃ tr, walk ram dir (hhdmOffset + BitVec.ofNat 64 a) = some tr ∧
    entryAddr tr.leaf + (hhdmOffset + BitVec.ofNat 64 a).toNat % 4096 = a ∧
      tr.perms &&& PageFlags.readwrite = PageFlags.readwrite

def Window.Onto (w : Window) (v : BitVec 64) (a : Nat) : Prop :=
  ∃ e, w.entry v = some e ∧ entryAddr e + v.toNat % 4096 = a

/-- What the windows have to do for byte `a`: the framebuffer, where it covers
the address, takes it there; otherwise the direct map does, which it can for
the low 4 GiB; or else the kernel image happens to. -/
structure Direct (boot : BootInfo) (mmap : List LimineMemmapEntry) (a : Nat) : Prop where
  framebuffer : (framebufferWindow boot mmap).Covers (boot.hhdmOffset + BitVec.ofNat 64 a) →
    (framebufferWindow boot mmap).Onto (boot.hhdmOffset + BitVec.ofNat 64 a) a
  direct : ¬(framebufferWindow boot mmap).Covers (boot.hhdmOffset + BitVec.ofNat 64 a) →
    (directWindow boot).Covers (boot.hhdmOffset + BitVec.ofNat 64 a) →
    4096 ∣ boot.hhdmOffset.toNat ∧ a < 2 ^ 32
  kernel : ¬(framebufferWindow boot mmap).Covers (boot.hhdmOffset + BitVec.ofNat 64 a) →
    ¬(directWindow boot).Covers (boot.hhdmOffset + BitVec.ofNat 64 a) →
      (kernelWindow boot).Onto (boot.hhdmOffset + BitVec.ofNat 64 a) a

section
variable {own : Set Nat} {boot : BootInfo} {mmap : List LimineMemmapEntry} {s s' : PhysicalMemory}
  {dir a : Nat}
  {used : List Nat} {v e : BitVec 64}

theorem kernelEntry_flags (h : kernelEntry boot mmap v = some e) :
    ∃ paddr, e = paddr ||| kernelFlags := by
  have hwindow : ∀ w : Window, w.flags = kernelFlags → w.entry v = some e →
      ∃ paddr, e = paddr ||| kernelFlags := by
    intro w hflags hw
    obtain ⟨k, -, -, rfl⟩ := Window.entry_some hw
    exact ⟨_, by rw [hflags]⟩
  rw [kernelEntry, Option.or_eq_some_iff, Option.or_eq_some_iff] at h
  rcases h with (h | ⟨-, h⟩) | ⟨-, h⟩
  · exact hwindow _ rfl h
  · exact hwindow _ rfl h
  · exact hwindow _ rfl h

theorem direct_onto_iff (h : (directWindow boot).Covers (boot.hhdmOffset + BitVec.ofNat 64 a)) :
    (directWindow boot).Onto (boot.hhdmOffset + BitVec.ofNat 64 a) a ↔
      4096 ∣ boot.hhdmOffset.toNat ∧ a < 2 ^ 32 := by
  obtain ⟨e, he⟩ := Option.isSome_iff_exists.mp (Window.entry_isSome.mpr h)
  obtain ⟨k, hk, hsame, rfl⟩ := Window.entry_some he
  rw [directWindow_pages] at hk
  have haddr :
      entryAddr (((directWindow boot).phys + BitVec.ofNat 64 (4096 * k)) ||| (directWindow boot).flags) =
        4096 * k := by
    have hmask : kernelFlags &&& flagMask = kernelFlags := by decide
    have hzero : (0 : BitVec 64) + BitVec.ofNat 64 (4096 * k) = BitVec.ofNat 64 (4096 * k) :=
      BitVec.zero_add _
    show entryAddr ((0 + BitVec.ofNat 64 (4096 * k)) ||| kernelFlags) = 4096 * k
    rw [hzero]
    exact entryAddr_ofNat (by omega) (by omega) hmask
  have honto : (directWindow boot).Onto (boot.hhdmOffset + BitVec.ofNat 64 a) a ↔
      4096 * k + (boot.hhdmOffset + BitVec.ofNat 64 a).toNat % 4096 = a := by
    constructor
    · rintro ⟨e, he', ha⟩
      obtain rfl := Option.some.inj (he.symm.trans he')
      rwa [haddr] at ha
    · intro ha
      exact ⟨_, he, by rwa [haddr]⟩
  have hvirt : SamePage (boot.hhdmOffset + BitVec.ofNat 64 (4096 * k))
      (boot.hhdmOffset + BitVec.ofNat 64 a) := hsame
  rw [honto]
  rw [SamePage, BitVec.toNat_add, BitVec.toNat_add, BitVec.toNat_ofNat, BitVec.toNat_ofNat] at hvirt
  rw [BitVec.toNat_add, BitVec.toNat_ofNat]
  constructor
  · intro ha
    omega
  · rintro ⟨hdvd, hlt⟩
    omega

theorem onto_of_entry {w : Window} (h : w.entry v = some e) :
    w.Onto v a ↔ entryAddr e + v.toNat % 4096 = a := by
  constructor
  · rintro ⟨e', he', ha⟩
    obtain rfl := Option.some.inj (h.symm.trans he')
    exact ha
  · intro ha
    exact ⟨e, h, ha⟩

theorem not_onto {w : Window} (h : ¬w.Covers v) : ¬w.Onto v a := by
  rintro ⟨e, he, -⟩
  exact h (Window.entry_isSome.mp (by rw [he]; rfl))

/-- Of the three windows the first to cover an address decides, from the last
one mapped on. -/
theorem direct_iff : Direct boot mmap a ↔
    ∃ e, kernelEntry boot mmap (boot.hhdmOffset + BitVec.ofNat 64 a) = some e ∧
      entryAddr e + (boot.hhdmOffset + BitVec.ofNat 64 a).toNat % 4096 = a := by
  cases hf : (framebufferWindow boot mmap).entry (boot.hhdmOffset + BitVec.ofNat 64 a) with
  | some e =>
    have hcov := Window.entry_isSome.mp (Option.isSome_iff_exists.mpr ⟨e, hf⟩)
    simp only [kernelEntry, hf, Option.some_or, Option.some.injEq, exists_eq_left', ← onto_of_entry hf]
    exact ⟨fun h => h.framebuffer hcov,
      fun h => ⟨fun _ => h, fun hnot => absurd hcov hnot, fun hnot => absurd hcov hnot⟩⟩
  | none =>
    have hfcov := Window.entry_none.mp hf
    cases hd : (directWindow boot).entry (boot.hhdmOffset + BitVec.ofNat 64 a) with
    | some e =>
      have hcov := Window.entry_isSome.mp (Option.isSome_iff_exists.mpr ⟨e, hd⟩)
      simp only [kernelEntry, hf, hd, Option.none_or, Option.some_or, Option.some.injEq,
        exists_eq_left', ← onto_of_entry hd]
      rw [direct_onto_iff hcov]
      exact ⟨fun h => h.direct hfcov hcov,
        fun h => ⟨fun hc => absurd hc hfcov, fun _ _ => h, fun _ hnot => absurd hcov hnot⟩⟩
    | none =>
      have hdcov := Window.entry_none.mp hd
      simp only [kernelEntry, hf, hd, Option.none_or]
      exact ⟨fun h => h.kernel hfcov hdcov,
        fun h => ⟨fun hc => absurd hc hfcov, fun _ hc => absurd hc hdcov, fun _ _ => h⟩⟩

theorem reaches_iff (h : Space own dir used s)
    (hleaf : ∀ v, leaf s.ram dir v = kernelEntry boot mmap v) :
    Reaches s.ram dir boot.hhdmOffset a ↔ Direct boot mmap a := by
  rw [direct_iff, Reaches, h.walk_eq, hleaf]
  constructor
  · rintro ⟨tr, htr, haddr, -⟩
    obtain ⟨e, he, rfl⟩ := Option.map_eq_some_iff.mp htr
    exact ⟨e, he, haddr⟩
  · rintro ⟨e, he, haddr⟩
    obtain ⟨paddr, rfl⟩ := kernelEntry_flags he
    refine ⟨_, Option.map_eq_some_iff.mpr ⟨_, he, rfl⟩, haddr, ?_⟩
    have hwrite : (permMask &&& PageFlags.readwrite) = PageFlags.readwrite := by decide
    show ((paddr ||| kernelFlags) &&& permMask) &&& PageFlags.readwrite = PageFlags.readwrite
    rw [BitVec.and_assoc, hwrite, kernelFlags, ← BitVec.or_assoc]
    exact or_and_self ..

-- ---------------------------------------------------------------------------
-- Sequences of allocations
-- ---------------------------------------------------------------------------

def allocStep (s : PhysicalMemory) (n : Nat) : Option PhysicalMemory := (s.alloc n).map Prod.snd

theorem run_grow {sizes : List Nat} (hs : Sane own s) (hrun : Run (Steps allocStep) s sizes s') :
    Sane own s' ∧ Grow own ∅ s s' := by
  refine hrun.invariant (I := fun s' => Sane own s' ∧ Grow own ∅ s s') ⟨hs, .refl⟩ ?_
  rintro t n u ⟨ht, hg⟩ hstep
  obtain ⟨⟨p, _⟩, halloc, rfl⟩ := Option.map_eq_some_iff.mp hstep
  have hn : 1 ≤ n := Nat.one_le_iff_ne_zero.mpr fun h0 => by
    rw [h0, alloc_zero] at halloc
    exact absurd halloc (by simp)
  have hal := ht.alloc hn halloc
  exact ⟨hal.sane, hg.trans hal.grow (by simp)⟩

theorem alloc_one_isSome {x : Nat} (hs : Sane own s) (hx : s.Free x) (hzero : ¬s.Free 0) :
    ∃ p s', s.alloc 1 = some (p, s') := by
  have hspace := hs.inSpace
  have hclear : ClearRun s.bitmap s.ram (x / 4096) 1 := by
    intro i h₁ h₂
    rw [show i = x / 4096 by omega]
    exact hx.2
  have hbit : s.bitmap.get s.ram 0 = true := by
    by_contra hbit
    rw [Bool.not_eq_true] at hbit
    exact hzero ⟨by have := hx.1; omega, hbit⟩
  by_cases hge : s.lastI ≤ x / 4096
  · exact alloc_isSome hclear hge hx.1 (le_refl 1) (by omega) hbit
  · exact alloc_isSome_below hclear (by omega) (le_refl 1) (by omega) hs.cursor hbit

theorem exists_alloc {x : Nat} (hs : Sane own s) (hx : s.Free x) (hzero : ¬s.Free 0) :
    ∃ sizes s' p s'', Run (Steps allocStep) s sizes s' ∧ s'.alloc 1 = some (p, s'') ∧
      x ∈ span p (4096 * 1) := by
  generalize hcount : s.freePages.card = count
  induction count using Nat.strong_induction_on generalizing s with
  | _ count ih =>
    obtain ⟨p, s₁, halloc⟩ := alloc_one_isSome hs hx hzero
    have hal := hs.alloc (le_refl 1) halloc
    by_cases hin : x ∈ span p (4096 * 1)
    · exact ⟨[], s, p, s₁, .nil, halloc, hin⟩
    · have hless := hal.freePages_lt (le_refl 1)
      rw [hcount] at hless
      obtain ⟨sizes, s', p', s'', hrun, halloc', hin'⟩ :=
        ih _ hless hal.sane (hal.rest x hx hin) (fun h0 => hzero (hal.grow.free 0 h0).1) rfl
      refine ⟨1 :: sizes, s', p', s'', .cons ?_ hrun, halloc', hin'⟩
      rw [Steps, allocStep, halloc]
      rfl

/-- In whatever order blocks are allocated from `s` on, each of their bytes is
within reach, then and later. -/
def AlwaysReached (s : PhysicalMemory) (dir : Nat) (hhdmOffset : BitVec 64) : Prop :=
  ∀ sizes n rest mid p next t, Run (Steps allocStep) s sizes mid → mid.alloc n = some (p, next) →
    Run (Steps allocStep) next rest t → ∀ a ∈ span p (4096 * n), Reaches t.ram dir hhdmOffset a

/-- Every block is within reach exactly when the windows of `kernelDir` serve
each byte that is free after `VirtualMemory::Initialize`. -/
theorem run_reaches_iff {s₁ : PhysicalMemory} (hs : Sane own s)
    (hinit : initializeMemory boot s = some (dir, s₁)) :
    ((∀ a, s₁.Free a → Direct boot s.mmap a) → AlwaysReached s₁ dir boot.hhdmOffset) ∧
      (¬s₁.Free 0 → AlwaysReached s₁ dir boot.hhdmOffset → ∀ a, s₁.Free a → Direct boot s.mmap a) := by
  obtain ⟨-, -, used, -, hspace, hleaf⟩ := initializeMemory_ok hs hinit
  -- allocating leaves the tables alone
  have hkept : ∀ {sizes t}, Run (Steps allocStep) s₁ sizes t →
      Space own dir used t ∧ ∀ v, leaf t.ram dir v = kernelEntry boot s.mmap v := by
    intro sizes t hrun
    obtain ⟨hst, hg⟩ := run_grow hspace.sane hrun
    obtain ⟨hspace', hleaf'⟩ := hspace.grow hst hg (by simp)
    exact ⟨hspace', fun v => (hleaf' v).trans (hleaf v)⟩
  have hjoin : ∀ {sizes n rest mid p next t}, Run (Steps allocStep) s₁ sizes mid →
      mid.alloc n = some (p, next) →
      Run (Steps allocStep) next rest t → Run (Steps allocStep) s₁ (sizes ++ n :: rest) t := by
    intro sizes n rest mid p next t hrun halloc hrest
    refine hrun.append (.cons ?_ hrest)
    rw [Steps, allocStep, halloc]
    rfl
  constructor
  · intro hdirect sizes n rest mid p next t hrun halloc hrest a ha
    obtain ⟨hmid, hg⟩ := run_grow hspace.sane hrun
    obtain ⟨hspace', hleaf'⟩ := hkept (hjoin hrun halloc hrest)
    have hn : 1 ≤ n := by
      have hlt := ha.2
      have hle := ha.1
      omega
    exact (reaches_iff hspace' hleaf').mpr (hdirect a (hg.free a ((hmid.alloc hn halloc).free a ha)).1)
  · intro hzero hreached a ha
    obtain ⟨sizes, mid, p, next, hrun, halloc, hin⟩ := exists_alloc hspace.sane ha hzero
    obtain ⟨hspace', hleaf'⟩ := hkept (hjoin hrun halloc .nil)
    exact (reaches_iff hspace' hleaf').mp (hreached sizes 1 [] mid p next next hrun halloc .nil a hin)

end

-- ---------------------------------------------------------------------------
-- Memory above 4 GiB
-- ---------------------------------------------------------------------------

/-- Room for the bitmap at 4 MiB, 32 GiB of memory from 4 GiB on, and two framebuffers. -/
def highMemory : List LimineMemmapEntry :=
  [⟨0x400000, 0x120000, limineMemmapUsable⟩, ⟨0x100000000, 0x800000000, limineMemmapUsable⟩,
    ⟨0xfd000000, 0x1000, limineMemmapFramebuffer⟩, ⟨0xfe000000, 0x1000, limineMemmapFramebuffer⟩]

def highBoot : BootInfo :=
  ⟨0x1000, 0xffffffff80000000, 0x200000, 0xffff8000fd000000, 0xffff800000000000⟩

def highMachine : PhysicalMemory := PhysicalMemory.initializeMemory highMemory fun _ => 0

abbrev highOwn : Set Nat := highMachine.bitmap.bytes highMachine.limit

theorem highMemory_ok : MapOk highMemory := mapOk_of_apart (by decide) (by decide) (by decide)

theorem highMemory_fits : Fits highMemory := ⟨by decide, by decide, by decide⟩

theorem highMachine_sane : Sane highOwn highMachine := highMemory_fits.sane highMemory_ok (by decide)

def highCarved : List LimineMemmapEntry := ⟨0x520000, 0, limineMemmapUsable⟩ :: highMemory.tail

theorem highMachine_init : highMachine.bitmap = ⟨0x400000⟩ ∧ highMachine.mmap = highCarved ∧
      highMachine.lastI = 0 := by
  have hcarve : carve (bitmapSize (highestUsable highMemory)) highMemory =
      some (0x400000, highCarved) := by decide
  exact initializeMemory_of_carve hcarve

theorem highMachine_framebuffer : framebufferEntry highMachine.mmap = (0xfd000000, 0x1000) := by
  obtain ⟨-, hmmap, -⟩ := highMachine_init
  rw [hmmap]
  decide

theorem highMachine_highestAddr : highMachine.highestAddr = 0x900000000 := by
  rw [highMachine, initializeMemory_highestAddr]
  decide

theorem highMachine_bit {i : Nat} (hi : i < 0x900000) :
    highMachine.bitmap.get highMachine.ram i = true ↔ i < 0x100000 := by
  obtain ⟨hbitmap, -, -⟩ := highMachine_init
  have hsize : 0x120000 = bitmapSize highMachine.highestAddr := by rw [highMachine_highestAddr]; decide
  obtain ⟨-, -, -, -, -, -, -, hbits⟩ :=
    initializeWith_spec (s := highMachine) highMemory_ok rfl hsize (by decide)
    ⟨_, List.mem_cons_self, rfl, by decide⟩
  rw [hbits i (by omega), BitmapPage, hbitmap, UsablePage]
  simp only [highMemory, List.mem_cons, List.not_mem_nil, or_false, exists_eq_or_imp, exists_eq_left,
    LimineMemmapEntry.Covers, limineMemmapUsable, limineMemmapFramebuffer, true_and,
    OfNat.ofNat_ne_zero, false_and]
  omega

theorem highMachine_free {a : Nat} (h : highMachine.Free a) : 0x100000000 ≤ a ∧ a < 0x900000000 := by
  obtain ⟨hlt, hbit⟩ := h
  rw [limit, highMachine_highestAddr] at hlt
  have hge : ¬a / 4096 < 0x100000 := by
    rw [← highMachine_bit (by omega), hbit]
    exact Bool.false_ne_true
  omega

theorem highMachine_stock : Stock highOwn { highMachine with lastI := 0x100000 } 0x900000 := by
  refine .of_sane highMachine_sane (fun i h₁ h₂ => ?_) (by decide) ?_
  · rw [← Bool.not_eq_true, highMachine_bit h₂]
    omega
  · rw [limit, highMachine_highestAddr]

theorem highMachine_skip {n : Nat} (hn : 1 ≤ n) (hfits : 0x100000 + n ≤ 0x900000) :
    highMachine.alloc n = { highMachine with lastI := 0x100000 }.alloc n := by
  obtain ⟨-, -, hcursor⟩ := highMachine_init
  refine alloc_skip (by rw [hcursor]; omega) (fun i _ h₂ => (highMachine_bit (by omega)).mpr h₂)
    (fun i h₁ h₂ => ?_) ?_ hn ?_
    (by decide)
  · rw [← Bool.not_eq_true, highMachine_bit (by omega)]
    omega
  · rw [limit, highMachine_highestAddr]
    exact hfits
  · rw [highMachine_highestAddr]
    decide

theorem highMachine_sane_seek : Sane highOwn { highMachine with lastI := 0x100000 } := by
  refine highMachine_sane.seek ?_
  rw [limit, highMachine_highestAddr]
  decide

theorem highMachine_returns {boot : BootInfo} (hsize : boot.kernelSize = 0x1000) :
    ∃ dir s₁, initializeMemory boot highMachine = some (dir, s₁) ∧ Stock highOwn s₁ 0x900000 ∧
      s₁.lastI ≤ 0x440000 := by
  have hsum : ((kernelWindows boot highMachine.mmap).map Window.pages).sum = 1048578 := by
    simp only [kernelWindows, List.map_cons, List.map_nil, List.sum_cons, List.sum_nil,
      kernelWindow_pages, directWindow_pages, framebufferWindow_pages, hsize, highMachine_framebuffer]
    decide
  have hbase : (framebufferEntry highMachine.mmap).1 ≠ 0 := by
    rw [highMachine_framebuffer]
    decide
  have hroom : 0x100000 + 1 + 3 * ((kernelWindows boot highMachine.mmap).map Window.pages).sum ≤
      0x900000 := by
    rw [hsum]
    decide
  obtain ⟨dir, s₁, hinit, hstock, hle⟩ :=
    initializeMemory_isSome highMachine_sane_seek highMachine_stock hbase hroom
  refine ⟨dir, s₁, (initializeMemory_congr (highMachine_skip (le_refl 1) (by decide))).trans hinit,
    hstock, ?_⟩
  rw [hsum] at hle
  exact le_trans hle (by decide)

theorem not_covers_high {w : Window} {a : Nat} (h₁ : 0x100000000 ≤ a) (h₂ : a < 0x900000000)
    (hw : 0x800000000000 ≤ w.virt.toNat % 2 ^ 48 ∧
      w.virt.toNat % 2 ^ 48 + 4096 * w.pages ≤ 0x800100000000 ∨
      0x800900000000 ≤ w.virt.toNat % 2 ^ 48 ∧ w.virt.toNat % 2 ^ 48 + 4096 * w.pages ≤ 2 ^ 48) :
    ¬w.Covers (highBoot.hhdmOffset + BitVec.ofNat 64 a) := by
  rintro ⟨k, hk, hsame⟩
  have hhdm : highBoot.hhdmOffset.toNat = 0xffff800000000000 := by decide
  rw [SamePage, BitVec.toNat_add, BitVec.toNat_add, BitVec.toNat_ofNat, BitVec.toNat_ofNat, hhdm]
    at hsame
  omega

theorem not_direct_high {a : Nat} (h₁ : 0x100000000 ≤ a) (h₂ : a < 0x900000000) :
    ¬Direct highBoot highMachine.mmap a := by
  obtain ⟨-, hmmap, -⟩ := highMachine_init
  rw [hmmap]
  intro h
  exact not_onto (not_covers_high h₁ h₂ (.inr (by decide)))
    (h.kernel (not_covers_high h₁ h₂ (.inl (by decide))) (not_covers_high h₁ h₂ (.inl (by decide))))

theorem run_reaches_iff_highMachine : ∃ dir s₁, initializeMemory highBoot highMachine = some (dir, s₁) ∧
    ¬AlwaysReached s₁ dir highBoot.hhdmOffset := by
  obtain ⟨dir, s₁, hinit, hstock, hle⟩ := highMachine_returns (rfl : highBoot.kernelSize = 0x1000)
  obtain ⟨-, hgrow, -⟩ := initializeMemory_ok highMachine_sane hinit
  have hfree : s₁.Free (4096 * s₁.lastI) := by
    refine ⟨?_, ?_⟩
    · have hfits := hstock.fits
      omega
    · rw [Nat.mul_div_cancel_left _ (by decide)]
      exact hstock.clear _ (le_refl _) (by omega)
  obtain ⟨h₁, h₂⟩ := highMachine_free (hgrow.free _ hfree).1
  refine ⟨dir, s₁, hinit, fun hreached => not_direct_high (by omega) h₂ ?_⟩
  refine (run_reaches_iff highMachine_sane hinit).2 (fun hzero => ?_) hreached _ hfree
  have hlow := (highMachine_free (hgrow.free _ hzero).1).1
  omega

/-- The first page allocated after `VirtualMemory::Initialize` is out of reach. -/
theorem highMachine_not_reached :
    ∃ dir s₁ p s₂, initializeMemory highBoot highMachine = some (dir, s₁) ∧
    s₁.alloc 1 = some (p, s₂) ∧ ¬Reaches s₂.ram dir highBoot.hhdmOffset p := by
  obtain ⟨dir, s₁, hinit, hstock, hle⟩ := highMachine_returns (rfl : highBoot.kernelSize = 0x1000)
  obtain ⟨-, hgrow, used, -, hspace, hleaf⟩ := initializeMemory_ok highMachine_sane hinit
  obtain ⟨p, s₂, halloc, hal, -, -⟩ := hstock.allocated hspace.sane (le_refl 1) (by omega)
  obtain ⟨hspace', hleaf'⟩ := hspace.grow hal.sane hal.grow (by simp)
  refine ⟨dir, s₁, p, s₂, hinit, halloc, fun hreaches => ?_⟩
  obtain ⟨h₁, h₂⟩ := highMachine_free (hgrow.free p (hal.free p ⟨le_refl p, by omega⟩)).1
  exact not_direct_high (by omega) h₂
    ((reaches_iff hspace' fun v => (hleaf' v).trans (hleaf v)).mp hreaches)

end VirtualMemory

end LimineOS
