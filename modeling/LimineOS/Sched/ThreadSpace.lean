import LimineOS.Sched.Task
import LimineOS.Mm.KernelSpace
import LimineOS.Mm.PageRequests

/-!
# The constructor of `Thread`

A thread starts with a stack, an empty root table and five windows mapped in
it: the kernel, the framebuffer, the stack, the direct map and the kernel stack
of the processor. `construct_ok` says what is mapped where afterwards, and on
which pages it all stands.
-/

namespace LimineOS

open ByteMemory PhysicalMemory VirtualMemory

namespace Thread

def userFlags : BitVec 64 := PageFlags.present ||| PageFlags.readwrite ||| PageFlags.user

def stackWindowSize : Nat := (BitVec.ofNat 32 (defaultThreadStackSize + 4096) &&& ~~~4096#32).toNat

def stackWindow (stackAddr : Nat) : Window :=
  ⟨0xffffa00000000000, BitVec.ofNat 64 stackAddr, stackWindowSize, userFlags⟩

def kstackWindow (kstackPhys : Nat) : Window :=
  ⟨0xffffd00000000000, BitVec.ofNat 64 kstackPhys, 16 * 1024 + 4096, kernelFlags⟩

def windows (boot : BootInfo) (mmap : List LimineMemmapEntry) (stackAddr kstackPhys : Nat) :
    List Window :=
  [kernelWindow boot, framebufferWindow boot mmap, stackWindow stackAddr, directWindow boot,
    kstackWindow kstackPhys]

/-- `ALIGN_UP(DEFAULT_THREAD_STACK_SIZE, 4096)`. It is a number of bytes, and
`alloc` takes it for a number of pages. -/
def stackPages : Nat := alignUp defaultThreadStackSize 4096

/-- The constructor; `none` when an allocation halts the machine. -/
def construct (boot : BootInfo) (kstackPhys : Nat) (s : PhysicalMemory) (entryPoint : BitVec 64)
    (isUser : Bool) :
    Option (Thread × PhysicalMemory) := do
  let (stackAddr, s) ← s.alloc stackPages
  let s := { s with ram := memset s.ram stackAddr 0 defaultThreadStackSize }
  let (rootTable, s) ← s.alloc 1
  let s := { s with ram := memset s.ram rootTable 0 4096 }
  let s ← (windows boot s.mmap stackAddr kstackPhys).foldlM (mapWindow rootTable) s
  some (build entryPoint isUser rootTable, s)

def defaultCalls (boot : BootInfo) (mmap : List LimineMemmapEntry)
    (stackAddr kstackPhys root : Nat) : List MapCall :=
  (windows boot mmap stackAddr kstackPhys).flatMap (Window.calls root)

-- ---------------------------------------------------------------------------
-- What it leaves behind
-- ---------------------------------------------------------------------------

section
variable {own : Set Nat} {boot : BootInfo} {mmap : List LimineMemmapEntry} {kstackPhys stackAddr : Nat}
  {s s' : PhysicalMemory} {entryPoint : BitVec 64} {isUser : Bool} {t : Thread}

structure Constructed (own : Set Nat) (boot : BootInfo) (kstackPhys : Nat) (s : PhysicalMemory)
    (root : Nat)
    (s' : PhysicalMemory) (used : List Nat) (stackAddr : Nat) : Prop where
  space : Space own root used s'
  grow : Grow own ∅ s s'
  tables : ∀ x ∈ tables used, s.Free x
  stackAligned : 4096 ∣ stackAddr
  stackFree : ∀ x ∈ span stackAddr (4096 * stackPages), s.Free x
  stackHeld : ∀ x ∈ span stackAddr (4096 * stackPages), s'.Held x
  leaf : ∀ v, leaf s'.ram root v =
    (lastCall (defaultCalls boot s.mmap stackAddr kstackPhys root) root v).map MapCall.entry

theorem windows_present :
    ∀ w ∈ windows boot mmap stackAddr kstackPhys,
      w.flags &&& PageFlags.present = PageFlags.present := by
  intro w hw
  have hkernel : kernelFlags &&& PageFlags.present = PageFlags.present := by decide
  have huser : userFlags &&& PageFlags.present = PageFlags.present := by decide
  simp only [windows, List.mem_cons, List.not_mem_nil, or_false] at hw
  rcases hw with rfl | rfl | rfl | rfl | rfl
  · exact hkernel
  · exact hkernel
  · exact huser
  · exact hkernel
  · exact hkernel

theorem construct_ok (hs : Sane own s)
    (hc : construct boot kstackPhys s entryPoint isUser = some (t, s')) :
    t.canRun = true ∧ ∃ used stackAddr,
      Constructed own boot kstackPhys s t.rootTable s' used stackAddr := by
  simp only [construct, Option.bind_eq_bind, Option.bind_eq_some_iff] at hc
  obtain ⟨⟨stackAddr, s₁⟩, hstack, ⟨root, s₂⟩, hroot, s₃, hwindows, hc⟩ := hc
  obtain ⟨rfl, rfl⟩ := Prod.mk.inj (Option.some.inj hc)
  have hpages : stackPages = 65536 := by decide
  have hfits : defaultThreadStackSize ≤ 4096 * stackPages := by
    rw [hpages, defaultThreadStackSize]
    omega
  -- the stack, and then the root table
  have hal₁ := hs.alloc (by omega) hstack
  obtain ⟨hs₁, hg₁, hheld₁, -⟩ := hal₁.fill hs hfits
  have hal₂ := hs₁.alloc (le_refl 1) hroot
  obtain ⟨hs₂, hg₂, hheld₂, hzero⟩ := hal₂.fill hs₁ (k := 4096) (le_refl _)
  rw [Nat.mul_one] at hheld₂
  have hmmap₂ : s₂.mmap = s.mmap := hg₂.mmap.trans hg₁.mmap
  obtain ⟨hspace, hempty⟩ := Space.start hs₂ (isFrame_of_allocated hal₂ hs₁ (le_refl 1)) hzero hheld₂
  obtain ⟨used, hext, hleaf⟩ := mapWindows_ok hspace windows_present hwindows
  have hrootfree : ∀ x ∈ VirtualMemory.tables [root], s.Free x := by
    rintro x ⟨f, hf, hx⟩
    exact (hg₁.free x (hal₂.free x (List.mem_singleton.mp hf ▸ hx))).1
  have hgrow : Grow own ∅ s s₃ := by
    refine (hg₁.trans hg₂ (by simp)).trans hext.grow fun x hx hheld => ?_
    exact absurd (hrootfree x hx) hheld.not_free
  refine ⟨rfl, used, stackAddr, hext.space, hgrow,
    fun x hx => ?_, hal₁.aligned, hal₁.free, fun x hx => ?_, fun v => ?_⟩
  · refine (hgrow.free_or_held (hext.space.held x hx)).resolve_right fun hheld => ?_
    have hroot' := hext.old x hx (hg₂.held x (hg₁.held x hheld))
    exact hheld.not_free (hrootfree x hroot')
  · exact hext.grow.held x (hg₂.held x (hheld₁ x hx))
  · show VirtualMemory.leaf s₃.ram root v = _
    rw [hleaf v, hempty v, Option.or_none, hmmap₂]
    rfl

theorem construct_isSome {last : Nat} (kstackPhys : Nat) (entryPoint : BitVec 64) (isUser : Bool)
    (hs : Sane own s) (hstock : Stock own s last)
    (hlast : s.lastI + stackPages + 1 + 3 * ((windows boot s.mmap 0 0).map Window.pages).sum ≤ last) :
    ∃ t s', construct boot kstackPhys s entryPoint isUser = some (t, s') ∧ Stock own s' last ∧
      s'.lastI ≤ s.lastI + stackPages + 1 + 3 * ((windows boot s.mmap 0 0).map Window.pages).sum := by
  have hpages : stackPages = 65536 := by decide
  have hfits : defaultThreadStackSize ≤ 4096 * stackPages := by
    rw [hpages, defaultThreadStackSize]
    omega
  have hwrite : ∀ {s : PhysicalMemory} {p k : Nat}, Stock own s last → (∀ x ∈ span p k, x ∉ own) →
      Stock own { s with ram := memset s.ram p 0 k } last := fun hstock hout =>
    hstock.write fun x hx => memset_eqOn _ _ _ _ fun hx' => hout x hx' hx
  obtain ⟨stackAddr, s₁, hstack, hal₁, hstock₁, hcursor₁⟩ :=
    hstock.allocated hs (n := stackPages) (by omega) (by omega)
  obtain ⟨hs₁, hg₁, -, -⟩ := hal₁.fill hs hfits
  have hstock₁' := hwrite (k := defaultThreadStackSize) hstock₁ fun x hx =>
    hs.apart x (hal₁.free x (span_subset (le_refl _) (by omega) hx))
  obtain ⟨root, s₂, hroot, hal₂, hstock₂, hcursor₂⟩ :=
    hstock₁'.allocated hs₁ (n := 1) (le_refl 1) (by simp only; omega)
  obtain ⟨hs₂, hg₂, hheld₂, hzero⟩ := hal₂.fill hs₁ (k := 4096) (le_refl _)
  rw [Nat.mul_one] at hheld₂
  have hstock₂' := hwrite (k := 4096) hstock₂ fun x hx => hs₁.apart x (hal₂.free x hx)
  obtain ⟨hspace, -⟩ := Space.start hs₂ (isFrame_of_allocated hal₂ hs₁ (le_refl 1)) hzero hheld₂
  have hmmap₂ : s₂.mmap = s.mmap := hg₂.mmap.trans hg₁.mmap
  have hsum : ((windows boot s₂.mmap stackAddr kstackPhys).map Window.pages).sum =
      ((windows boot s.mmap 0 0).map Window.pages).sum := by
    rw [hmmap₂]
    rfl
  simp only at hcursor₂
  obtain ⟨s₃, hwindows, hstock₃, hle⟩ := mapWindows_isSome hspace hstock₂' windows_present
    (by rw [hsum]; simp only; omega)
  rw [hsum] at hle
  simp only at hle
  refine ⟨build entryPoint isUser root, s₃, ?_, hstock₃, by omega⟩
  simp only [construct, Option.bind_eq_bind, hstack, hroot, Option.bind_some]
  rw [hwindows, Option.bind_some]

end

-- ---------------------------------------------------------------------------
-- What it asks for
-- ---------------------------------------------------------------------------

def defaultPages (boot : BootInfo) (mmap : List LimineMemmapEntry) : List (BitVec 64) :=
  (defaultCalls boot mmap 0 0 0).map MapCall.vaddr

def requests (boot : BootInfo) (mmap : List LimineMemmapEntry) : List Nat :=
  [stackPages] ++ ([1] ++ tableRequests [] (defaultPages boot mmap))

section
variable {own : Set Nat} {boot : BootInfo} {mmap : List LimineMemmapEntry}
  {kstackPhys stackAddr root : Nat}
  {s s' : PhysicalMemory} {entryPoint : BitVec 64} {isUser : Bool} {t : Thread}

theorem defaultCalls_vaddr :
    (defaultCalls boot mmap stackAddr kstackPhys root).map MapCall.vaddr = defaultPages boot mmap := by
  have hcalls : ∀ {root : Nat} {w : Window}, (w.calls root).map MapCall.vaddr =
      (List.range ((w.length + 4095) / 4096)).map fun k => w.virt + BitVec.ofNat 64 (4096 * k) := by
    intro root w
    rw [Window.calls, List.map_map]
    rfl
  simp only [defaultPages, defaultCalls, windows, List.flatMap_cons, List.flatMap_nil,
    List.map_append, List.map_nil, hcalls, stackWindow, kstackWindow]

theorem construct_asks (hs : Sane own s) :
    Asks s (requests boot s.mmap) (construct boot kstackPhys s entryPoint isUser) Prod.snd ∧
      ∀ t s', construct boot kstackPhys s entryPoint isUser = some (t, s') →
        Charted s'.ram t.rootTable (defaultPages boot s.mmap).reverse := by
  have hpages : stackPages = 65536 := by decide
  have hfits : defaultThreadStackSize ≤ 4096 * stackPages := by
    rw [hpages, defaultThreadStackSize]
    omega
  -- what the windows need, once the stack and the root table are there
  have hwindows : ∀ {stackAddr root : Nat} {s₁ s₂ : PhysicalMemory},
      s.alloc stackPages = some (stackAddr, s₁) →
      PhysicalMemory.alloc { s₁ with ram := memset s₁.ram stackAddr 0 defaultThreadStackSize } 1 =
        some (root, s₂) →
      Asks { s₂ with ram := memset s₂.ram root 0 4096 } (tableRequests [] (defaultPages boot s.mmap))
          ((windows boot s₂.mmap stackAddr kstackPhys).foldlM (mapWindow root)
            { s₂ with ram := memset s₂.ram root 0 4096 }) id ∧
        ∀ s', (windows boot s₂.mmap stackAddr kstackPhys).foldlM (mapWindow root)
            { s₂ with ram := memset s₂.ram root 0 4096 } = some s' →
          Charted s'.ram root (defaultPages boot s.mmap).reverse := by
    intro stackAddr root s₁ s₂ hstack hroot
    have hal₁ := hs.alloc (by omega) hstack
    obtain ⟨hs₁, hg₁, -, -⟩ := hal₁.fill hs hfits
    have hal₂ := hs₁.alloc (le_refl 1) hroot
    obtain ⟨hs₂, hg₂, hheld₂, hzero⟩ := hal₂.fill hs₁ (k := 4096) (le_refl _)
    rw [Nat.mul_one] at hheld₂
    obtain ⟨hspace, -⟩ := Space.start hs₂ (isFrame_of_allocated hal₂ hs₁ (le_refl 1)) hzero hheld₂
    have hdefault : defaultPages boot s₂.mmap = defaultPages boot s.mmap := by
      rw [hg₂.mmap.trans hg₁.mmap]
    have hpresent : ∀ c ∈ defaultCalls boot s₂.mmap stackAddr kstackPhys root,
        c.root = root ∧ c.flags &&& PageFlags.present = PageFlags.present := by
      intro c hc
      obtain ⟨w, hw, hc⟩ := List.mem_flatMap.mp hc
      obtain ⟨k, -, rfl⟩ := List.mem_map.mp hc
      exact ⟨rfl, windows_present w hw⟩
    have hcalls := hspace.mapCalls_asks (charted_nil hzero) hpresent
    rw [defaultCalls_vaddr, List.append_nil, hdefault] at hcalls
    rw [mapWindows_eq]
    exact hcalls
  constructor
  · refine (Asks.alloc hs (by omega)).bind ?_
    rintro ⟨stackAddr, s₁⟩ hstack
    have hal₁ := hs.alloc (by omega) hstack
    obtain ⟨hs₁, -, -, -⟩ := hal₁.fill hs hfits
    refine Asks.fill hal₁ hs hfits ((Asks.alloc hs₁ (le_refl 1)).bind ?_)
    rintro ⟨root, s₂⟩ hroot
    have hal₂ := hs₁.alloc (le_refl 1) hroot
    rw [← List.append_nil (tableRequests _ _)]
    refine Asks.fill (k := 4096) hal₂ hs₁ (le_refl _) ?_
    exact (hwindows hstack hroot).1.bind fun s₃ _ => .pure fun _ hb => hb
  · intro t s' hc
    simp only [construct, Option.bind_eq_bind, Option.bind_eq_some_iff] at hc
    obtain ⟨⟨stackAddr, s₁⟩, hstack, ⟨root, s₂⟩, hroot, s₃, hfold, hc⟩ := hc
    obtain ⟨rfl, rfl⟩ := Prod.mk.inj (Option.some.inj hc)
    exact (hwindows hstack hroot).2 s₃ hfold

end

end Thread

end LimineOS
