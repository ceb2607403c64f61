import LimineOS.Mm.Space

/-!
# The kernel's address space

`VirtualMemory::Initialize` builds `kernelDir` from three windows: the kernel
image, the direct map of the low 4 GiB and the framebuffer.
-/

namespace LimineOS

open ByteMemory PhysicalMemory

namespace VirtualMemory

structure BootInfo where
  kernelSize : Nat
  virtualBase : BitVec 64
  physicalBase : BitVec 64
  framebuffer : BitVec 64
  hhdmOffset : BitVec 64

def kernelFlags : BitVec 64 := PageFlags.present ||| PageFlags.readwrite

/-- Base and length of the first framebuffer entry, zero where there is none. -/
def framebufferEntry (mmap : List LimineMemmapEntry) : Nat × Nat :=
  match mmap.find? fun e => e.type = limineMemmapFramebuffer with
  | some e => (e.base, e.length)
  | none => (0, 0)

def kernelWindow (boot : BootInfo) : Window :=
  ⟨boot.virtualBase, boot.physicalBase, boot.kernelSize, kernelFlags⟩

def framebufferWindow (boot : BootInfo) (mmap : List LimineMemmapEntry) : Window :=
  ⟨boot.framebuffer, BitVec.ofNat 64 (framebufferEntry mmap).1, (framebufferEntry mmap).2, kernelFlags⟩

def directWindow (boot : BootInfo) : Window := ⟨boot.hhdmOffset, 0, 0x100000000, kernelFlags⟩

/-- The default mapping of `kernelDir`, in the order of the source. -/
def kernelWindows (boot : BootInfo) (mmap : List LimineMemmapEntry) : List Window :=
  [kernelWindow boot, directWindow boot, framebufferWindow boot mmap]

/-- `VirtualMemory::Initialize`, which returns `kernelDir`; `none` where it
halts. The bootloader's tables, which are in place until the end, map
`kernelDir` to itself for the `memset`. -/
def initializeMemory (boot : BootInfo) (s : PhysicalMemory) : Option (Nat × PhysicalMemory) := do
  let (kernelDir, s) ← s.alloc 1
  let s := { s with ram := memset s.ram kernelDir 0 4096 }
  let s ← mapWindow kernelDir s (kernelWindow boot)
  let s ← mapWindow kernelDir s (directWindow boot)
  if (framebufferEntry s.mmap).1 = 0 then none
  else do
    let s ← mapWindow kernelDir s (framebufferWindow boot s.mmap)
    some (kernelDir, s)

-- ---------------------------------------------------------------------------
-- What it maps
-- ---------------------------------------------------------------------------

/-- What `kernelDir` holds for the page of an address. -/
def kernelEntry (boot : BootInfo) (mmap : List LimineMemmapEntry) (v : BitVec 64) :
    Option (BitVec 64) :=
  (((framebufferWindow boot mmap).entry v).or ((directWindow boot).entry v)).or
    ((kernelWindow boot).entry v)

section
variable {own : Set Nat} {boot : BootInfo} {mmap : List LimineMemmapEntry} {s s' : PhysicalMemory}
  {dir last : Nat}

theorem kernelWindow_pages : (kernelWindow boot).pages = (boot.kernelSize + 4095) / 4096 := rfl

theorem directWindow_pages : (directWindow boot).pages = 2 ^ 20 := by
  show (0x100000000 + 4095) / 4096 = 2 ^ 20
  decide

theorem framebufferWindow_pages :
    (framebufferWindow boot mmap).pages = ((framebufferEntry mmap).2 + 4095) / 4096 := rfl

theorem kernelWindows_present :
    ∀ w ∈ kernelWindows boot mmap, w.flags &&& PageFlags.present = PageFlags.present := by
  intro w hw
  have hflags : kernelFlags &&& PageFlags.present = PageFlags.present := by decide
  simp only [kernelWindows, List.mem_cons, List.not_mem_nil, or_false] at hw
  rcases hw with rfl | rfl | rfl
  · exact hflags
  · exact hflags
  · exact hflags

theorem initializeMemory_cases (h : initializeMemory boot s = some (dir, s')) :
    ∃ s₁ s₂ s₃, s.alloc 1 = some (dir, s₁) ∧
      mapWindow dir { s₁ with ram := memset s₁.ram dir 0 4096 } (kernelWindow boot) = some s₂ ∧
      mapWindow dir s₂ (directWindow boot) = some s₃ ∧ (framebufferEntry s₃.mmap).1 ≠ 0 ∧
      mapWindow dir s₃ (framebufferWindow boot s₃.mmap) = some s' := by
  simp only [initializeMemory, Option.bind_eq_bind, Option.bind_eq_some_iff] at h
  obtain ⟨⟨d, s₁⟩, halloc, s₂, hkernel, s₃, hdirect, h⟩ := h
  split_ifs at h with hbase
  obtain ⟨s₄, hframebuffer, h⟩ := Option.bind_eq_some_iff.mp h
  obtain ⟨rfl, rfl⟩ := Prod.mk.inj (Option.some.inj h)
  exact ⟨s₁, s₂, s₃, halloc, hkernel, hdirect, hbase, hframebuffer⟩

theorem initializeMemory_of {s₁ s₂ s₃ : PhysicalMemory} (halloc : s.alloc 1 = some (dir, s₁))
    (hkernel : mapWindow dir { s₁ with ram := memset s₁.ram dir 0 4096 } (kernelWindow boot) = some s₂)
    (hdirect : mapWindow dir s₂ (directWindow boot) = some s₃)
    (hbase : (framebufferEntry s₃.mmap).1 ≠ 0)
    (hframebuffer : mapWindow dir s₃ (framebufferWindow boot s₃.mmap) = some s') :
    initializeMemory boot s = some (dir, s') := by
  unfold initializeMemory
  refine Option.bind_eq_some_iff.mpr ⟨(dir, s₁), halloc, ?_⟩
  refine Option.bind_eq_some_iff.mpr ⟨s₂, hkernel, ?_⟩
  refine Option.bind_eq_some_iff.mpr ⟨s₃, hdirect, ?_⟩
  refine (if_neg hbase).trans (Option.bind_eq_some_iff.mpr ⟨s', hframebuffer, ?_⟩)
  rfl

theorem initializeMemory_congr {t : PhysicalMemory} (h : s.alloc 1 = t.alloc 1) :
    initializeMemory boot s = initializeMemory boot t := by
  unfold initializeMemory
  rw [h]

/-- Mapping leaves the memory map alone, so the three loops are one over the
windows. -/
theorem mapWindows_mmap {used : List Nat} {s₁ s₂ s₃ : PhysicalMemory} (h : Space own dir used s₁)
    (hkernel : mapWindow dir s₁ (kernelWindow boot) = some s₂)
    (hdirect : mapWindow dir s₂ (directWindow boot) = some s₃) :
    s₃.mmap = s₁.mmap := by
  have hfirst : [kernelWindow boot, directWindow boot].foldlM (mapWindow dir) s₁ = some s₃ :=
    foldlM_cons_iff.mpr ⟨s₂, hkernel, foldlM_cons_iff.mpr ⟨s₃, hdirect, rfl⟩⟩
  have hpresent : ∀ w ∈ [kernelWindow boot, directWindow boot],
      w.flags &&& PageFlags.present = PageFlags.present :=
    fun w hw => kernelWindows_present w (List.mem_append_left [framebufferWindow boot []] hw)
  obtain ⟨used₃, hext₃, -⟩ := mapWindows_ok h hpresent hfirst
  exact hext₃.grow.mmap

theorem initializeMemory_ok (hs : Sane own s) (h : initializeMemory boot s = some (dir, s')) :
    (framebufferEntry s.mmap).1 ≠ 0 ∧ Grow own ∅ s s' ∧
      ∃ used, (∀ x ∈ tables used, s.Free x) ∧ Space own dir used s' ∧
        ∀ v, leaf s'.ram dir v = kernelEntry boot s.mmap v := by
  obtain ⟨s₁, s₂, s₃, halloc, hkernel, hdirect, hbase, hframebuffer⟩ := initializeMemory_cases h
  have hal := hs.alloc (le_refl 1) halloc
  obtain ⟨hs₁, hg₁, hheld, hzero⟩ := hal.fill hs (k := 4096) (le_refl _)
  rw [Nat.mul_one] at hheld
  obtain ⟨hspace, hempty⟩ := Space.start hs₁ (isFrame_of_allocated hal hs (le_refl 1)) hzero hheld
  have hmmap : s₃.mmap = s.mmap := (mapWindows_mmap hspace hkernel hdirect).trans hal.grow.mmap
  rw [hmmap] at hbase hframebuffer
  have hwindows : (kernelWindows boot s.mmap).foldlM (mapWindow dir)
      { s₁ with ram := memset s₁.ram dir 0 4096 } =
      some s' :=
    foldlM_cons_iff.mpr ⟨s₂, hkernel,
      foldlM_cons_iff.mpr ⟨s₃, hdirect, foldlM_cons_iff.mpr ⟨s', hframebuffer, rfl⟩⟩⟩
  obtain ⟨used, hext, hleaf⟩ := mapWindows_ok hspace kernelWindows_present hwindows
  have hrootfree : ∀ x ∈ tables [dir], s.Free x := by
    rintro x ⟨f, hf, hx⟩
    exact hal.free x (List.mem_singleton.mp hf ▸ hx)
  have hgrow : Grow own ∅ s s' :=
    hg₁.trans hext.grow fun x hx hx' => absurd (hrootfree x hx) hx'.not_free
  refine ⟨hbase, hgrow, used, fun x hx => ?_, hext.space, fun v => ?_⟩
  · refine (hgrow.free_or_held (hext.space.held x hx)).resolve_right fun hx' => ?_
    exact hx'.not_free (hrootfree x (hext.old x hx (hg₁.held x hx')))
  · rw [hleaf v, hempty v, Option.or_none, lastCall_flatMap]
    simp only [kernelWindows, kernelEntry, List.foldr_cons, List.foldr_nil, Option.none_or]

theorem initializeMemory_isSome (hs : Sane own s) (hstock : Stock own s last)
    (hbase : (framebufferEntry s.mmap).1 ≠ 0)
    (hlast : s.lastI + 1 + 3 * ((kernelWindows boot s.mmap).map Window.pages).sum ≤ last) :
    ∃ dir s', initializeMemory boot s = some (dir, s') ∧ Stock own s' last ∧
      s'.lastI ≤ s.lastI + 1 + 3 * ((kernelWindows boot s.mmap).map Window.pages).sum := by
  obtain ⟨dir, s₁, halloc, hal, hstock₁, hcursor₁⟩ := hstock.allocated hs (le_refl 1) (by omega)
  obtain ⟨hs₁, hg₁, hheld, hzero⟩ := hal.fill hs (k := 4096) (le_refl _)
  rw [Nat.mul_one] at hheld
  have hstock₁' : Stock own { s₁ with ram := memset s₁.ram dir 0 4096 } last :=
    hstock₁.write fun x hx => memset_eqOn _ _ _ _ fun hx' => hs.apart x (hal.free x hx') hx
  obtain ⟨hspace, -⟩ := Space.start hs₁ (isFrame_of_allocated hal hs (le_refl 1)) hzero hheld
  have hroom : PhysicalMemory.lastI { s₁ with ram := memset s₁.ram dir 0 4096 } +
      3 * ((kernelWindows boot s.mmap).map Window.pages).sum ≤ last := by
    simp only
    omega
  obtain ⟨s₄, hwindows, hstock₄, hle⟩ := mapWindows_isSome hspace hstock₁' kernelWindows_present hroom
  obtain ⟨s₂, hkernel, hrest⟩ := foldlM_cons_iff.mp hwindows
  obtain ⟨s₃, hdirect, hrest⟩ := foldlM_cons_iff.mp hrest
  obtain ⟨_, hframebuffer, hrest⟩ := foldlM_cons_iff.mp hrest
  obtain rfl := Option.some.inj hrest
  have hmmap : s₃.mmap = s.mmap := (mapWindows_mmap hspace hkernel hdirect).trans hal.grow.mmap
  rw [← hmmap] at hbase hframebuffer
  exact ⟨dir, _, initializeMemory_of halloc hkernel hdirect hbase hframebuffer, hstock₄,
    by simp only at hle; omega⟩

end

end VirtualMemory

end LimineOS
