import LimineOS.Fs.ElfSegments
import LimineOS.Sched.Queue

/-!
# What a load does to the thread's mappings

The constructor maps five windows into the address space of a new thread, and
the load then maps one page for each loadable header. Nothing keeps the two
apart: a load leaves the windows alone exactly when no header asks for a page
of theirs.
-/

namespace LimineOS

open ByteMemory PhysicalMemory VirtualMemory

/-- The heap takes pages from the allocator and writes only into what is held. -/
def New.TakesPages (own : Set Nat) (new : New) : Prop :=
  ∀ {s n p s'}, Sane own s → new s n = some (p, s') → Sane own s' ∧ Grow own Set.univ s s'

abbrev Kernel.segments (around : Nat → Mem) (k : Kernel) (path : CStr) (root : Nat)
    (s : PhysicalMemory) : List Segment :=
  segmentsOf root s (k.vfs.turns around path)

/-- The constructor maps the page. Where the stacks lie in physical memory does
not matter. -/
def Thread.DefaultMapped (boot : BootInfo) (mmap : List LimineMemmapEntry) (v : BitVec 64) : Prop :=
  ∃ w ∈ Thread.windows boot mmap 0 0, w.Covers v

def Preserved (root : Nat) (ram ram' : Mem) : Prop :=
  ∀ v, (walk ram root v).isSome → walk ram' root v = walk ram root v

section
variable {own : Set Nat} {new : New} {around : Nat → Mem} {k k' : Kernel} {path : CStr}
  {t : ThreadPtr} {thread : Thread}
  {s₁ s₂ s₃ : PhysicalMemory} {boot : BootInfo} {mmap : List LimineMemmapEntry}
  {stackAddr kstackPhys root : Nat}
  {v : BitVec 64}

theorem defaultCalls_isSome :
    (lastCall (Thread.defaultCalls boot mmap stackAddr kstackPhys root) root v).isSome ↔
      Thread.DefaultMapped boot mmap v := by
  rw [Thread.defaultCalls, lastCall_windows]
  simp only [Thread.DefaultMapped, Thread.windows, List.mem_cons, List.not_mem_nil, or_false,
    exists_eq_or_imp, exists_eq_left]
  rfl

structure Loaded (own : Set Nat) (around : Nat → Mem) (k k' : Kernel) (path : CStr) (root : Nat)
    (s₂ s₃ : PhysicalMemory)
    (used used' : List Nat) (stackAddr : Nat) : Prop where
  grow : Grow own Set.univ k.pmm s₂
  sane : Sane own s₂
  constructed : Thread.Constructed own k.boot k.sched.getCurCPU.kstackPhys s₂ root s₃ used stackAddr
  phdrs : (k.segments around path root s₃).map Segment.phdr = (k.vfs.turns around path).filter (·.Loads)
  extended : Extended own root used s₃ used' k'.pmm
  placed : ∀ g ∈ k.segments around path root s₃, Placed s₃ used' k'.pmm g
  leaf : ∀ v, leaf k'.pmm.ram root v =
    ((lastCall ((k.segments around path root s₃).map (Segment.call root)) root v).map
      MapCall.entry).or (leaf s₃.ram root v)

theorem Loading.loaded (h : Loading new around k path k' t thread s₁ s₂ s₃)
    (hnew : New.TakesPages own new)
    (hs : Sane own k.pmm) (hfit : ∀ ph ∈ k.vfs.turns around path, ph.Fits) :
    ∃ used used' stackAddr,
      Loaded own around k k' path thread.rootTable s₂ s₃ used used' stackAddr := by
  obtain ⟨size, p, hbuffer⟩ := h.buffer
  obtain ⟨hs₁, hg₁⟩ := hnew hs hbuffer
  obtain ⟨hs₂, hg₂⟩ := hnew hs₁ h.object
  obtain ⟨-, used, stackAddr, hcons⟩ := Thread.construct_ok hs₂ h.construct
  obtain ⟨used', hext, hplaced, hleaf⟩ := loadPhdrs_ok hcons.space hfit h.segments
  exact ⟨used, used', stackAddr, hg₁.trans hg₂ (by simp), hs₂, hcons, segmentsOf_phdrs h.segments,
    hext, hplaced, hleaf⟩

theorem Loaded.leaf_of_phdr {used used' : List Nat} {ph : Turn}
    (h : Loaded own around k k' path root s₂ s₃ used used' stackAddr)
    (hph : ph ∈ k.vfs.turns around path) (hl : ph.Loads)
    (hv : SamePage ph.pVaddr v) :
    ∃ g ∈ k.segments around path root s₃, SamePage g.phdr.pVaddr v ∧
      VirtualMemory.leaf k'.pmm.ram root v = some (g.call root).entry := by
  have hmem : ph ∈ (k.vfs.turns around path).filter (·.Loads) :=
    List.mem_filter.mpr ⟨hph, by simpa using hl⟩
  rw [← h.phdrs] at hmem
  obtain ⟨g₀, hg₀, rfl⟩ := List.mem_map.mp hmem
  have hsome : (lastCall ((k.segments around path root s₃).map (Segment.call root)) root v).isSome :=
    lastCall_isSome.mpr ⟨g₀.call root, List.mem_map.mpr ⟨g₀, hg₀, rfl⟩, rfl, hv⟩
  obtain ⟨c, hc⟩ := Option.isSome_iff_exists.mp hsome
  obtain ⟨hcmem, -, hsame⟩ := lastCall_some hc
  obtain ⟨g, hg, rfl⟩ := List.mem_map.mp hcmem
  refine ⟨g, hg, hsame, ?_⟩
  rw [h.leaf v, hc]
  rfl

theorem Loaded.leaf_of_not {used used' : List Nat}
    (h : Loaded own around k k' path root s₂ s₃ used used' stackAddr)
    (hnot : ∀ ph ∈ k.vfs.turns around path, ph.Loads → ¬SamePage ph.pVaddr v) :
    VirtualMemory.leaf k'.pmm.ram root v = VirtualMemory.leaf s₃.ram root v := by
  rw [h.leaf v]
  cases hc : lastCall ((k.segments around path root s₃).map (Segment.call root)) root v with
  | none => rfl
  | some c =>
    obtain ⟨hcmem, -, hsame⟩ := lastCall_some hc
    obtain ⟨g, hg, rfl⟩ := List.mem_map.mp hcmem
    have hmem : g.phdr ∈ (k.vfs.turns around path).filter (·.Loads) := h.phdrs ▸ List.mem_map_of_mem hg
    obtain ⟨hph, hl⟩ := List.mem_filter.mp hmem
    exact absurd hsame (hnot g.phdr hph (by simpa using hl))

theorem Placed.entryAddr {s s' : PhysicalMemory} {used' : List Nat} {g : Segment} (hs : Sane own s)
    (h : Placed s used' s' g) : VirtualMemory.entryAddr (g.call root).entry = g.addr := by
  have hpages := g.phdr.pages_pos
  have hfree := (h.free g.addr ⟨le_refl _, by omega⟩).1
  have hspace := hs.inSpace
  have hmask : Thread.userFlags &&& flagMask = Thread.userFlags := by decide
  refine entryAddr_ofNat h.aligned ?_ hmask
  rw [PhysicalMemory.limit] at hfree
  obtain ⟨q, hq⟩ := h.aligned
  omega

theorem Segment.call_user (g : Segment) (root : Nat) :
    (g.call root).entry &&& PageFlags.user = PageFlags.user := by
  show (BitVec.ofNat 64 g.addr ||| Thread.userFlags) &&& PageFlags.user = PageFlags.user
  rw [Thread.userFlags, ← BitVec.or_assoc]
  exact or_and_self ..

theorem Window.call_kernel {w : Window} (hdvd : 4096 ∣ w.phys.toNat)
    (hflags : w.flags = kernelFlags) (root j : Nat) :
    (w.call root j).entry &&& PageFlags.user = 0 := by
  have hphys : 4096 ∣ (w.phys + BitVec.ofNat 64 (4096 * j)).toNat := by
    rw [BitVec.toNat_add, BitVec.toNat_ofNat]
    omega
  have hnone : kernelFlags &&& PageFlags.user = 0 := by decide
  rw [MapCall.entry, BitVec.and_or_distrib_right, Window.call, and_of_aligned hphys (by decide)]
  show 0 ||| (w.flags &&& PageFlags.user) = 0
  rw [hflags, hnone]
  rfl

theorem Loaded.stack_entry_ne {used used' : List Nat} {g : Segment} {j : Nat}
    (h : Loaded own around k k' path root s₂ s₃ used used' stackAddr)
    (hg : g ∈ k.segments around path root s₃)
    (hj : j < (Thread.stackWindow stackAddr).pages) :
    ((Thread.stackWindow stackAddr).call root j).entry ≠ (g.call root).entry := by
  intro heq
  have hpages : (Thread.stackWindow stackAddr).pages = 16 := by
    show (Thread.stackWindowSize + 4095) / 4096 = 16
    decide
  have hmem : stackAddr + 4096 * j ∈ span stackAddr (4096 * Thread.stackPages) := by
    rw [mem_span, show Thread.stackPages = 65536 by decide]
    omega
  have hheld := h.constructed.stackHeld _ hmem
  have haddr : entryAddr ((Thread.stackWindow stackAddr).call root j).entry = stackAddr + 4096 * j := by
    have hlimit := hheld.1
    have hspace := h.constructed.space.sane.inSpace
    obtain ⟨q, hq⟩ := h.constructed.stackAligned
    rw [PhysicalMemory.limit] at hlimit
    show entryAddr ((BitVec.ofNat 64 stackAddr + BitVec.ofNat 64 (4096 * j)) ||| Thread.userFlags) = _
    rw [← BitVec.ofNat_add]
    exact entryAddr_ofNat (by omega) (by omega) (by decide)
  have hplaced := h.placed g hg
  rw [heq, hplaced.entryAddr h.constructed.space.sane] at haddr
  have hpos := g.phdr.pages_pos
  exact (haddr ▸ hheld).not_free (hplaced.free g.addr ⟨le_refl _, by omega⟩)

theorem Loaded.entry_ne {used used' : List Nat} {g : Segment} {c : MapCall}
    (h : Loaded own around k k' path root s₂ s₃ used used' stackAddr)
    (haligned : ∀ w ∈ Thread.windows k.boot k.pmm.mmap 0 k.sched.getCurCPU.kstackPhys,
      4096 ∣ w.phys.toNat)
    (hg : g ∈ k.segments around path root s₃)
    (hc : c ∈ Thread.defaultCalls k.boot s₂.mmap stackAddr k.sched.getCurCPU.kstackPhys root) :
    c.entry ≠ (g.call root).entry := by
  obtain ⟨w, hw, hc⟩ := List.mem_flatMap.mp hc
  obtain ⟨j, hj, rfl⟩ := List.mem_map.mp hc
  have hkernel : 4096 ∣ w.phys.toNat → w.flags = kernelFlags →
      (w.call root j).entry ≠ (g.call root).entry := by
    intro hdvd hflags heq
    have huser := g.call_user root
    rw [← heq, Window.call_kernel hdvd hflags] at huser
    exact absurd huser (by decide)
  rw [h.grow.mmap] at hw
  simp only [Thread.windows, List.mem_cons, List.not_mem_nil, or_false] at hw haligned
  rcases hw with rfl | rfl | rfl | rfl | rfl
  · exact hkernel (haligned _ (by simp)) rfl
  · exact hkernel (haligned _ (by simp)) rfl
  · exact h.stack_entry_ne hg (List.mem_range.mp hj)
  · exact hkernel (haligned _ (by simp)) rfl
  · exact hkernel (haligned _ (by simp)) rfl

/-- The pages that a window maps lie in a block of `pages` pages, and every page
of the block is mapped in the window. -/
def Occupies (ram : Mem) (root : Nat) (window : BitVec 64 → Prop) (block pages : Nat) : Prop :=
  (∀ v tr, window v → walk ram root v = some tr → ∃ i < pages, entryAddr tr.leaf = block + 4096 * i) ∧
    ∀ i < pages, ∃ v tr, window v ∧ walk ram root v = some tr ∧ entryAddr tr.leaf = block + 4096 * i

def Elf64Phdr.Covers (ph : Elf64Phdr) (v : BitVec 64) : Prop :=
  ∃ i < ph.pMemsz, SamePage (ph.pVaddr + BitVec.ofNat 64 i) v

def Coincide (ram : Mem) (root stackAddr kstackPhys : Nat) (gs : List Segment) : Prop :=
  Occupies ram root (Thread.stackWindow stackAddr).Covers stackAddr Thread.stackPages ∧
    Occupies ram root (Thread.kstackWindow kstackPhys).Covers kstackPhys 4 ∧
    ∀ g ∈ gs, Occupies ram root g.phdr.Covers g.addr g.phdr.pages

theorem not_occupies {ram : Mem} {w : Window} {block pages : Nat} (h : w.pages < pages) :
    ¬Occupies ram root w.Covers block pages := by
  rintro ⟨-, hall⟩
  let reached : Nat → Nat := fun j =>
    ((walk ram root (w.virt + BitVec.ofNat 64 (4096 * j))).map fun tr => entryAddr tr.leaf).getD 0
  have hsub : (Finset.range pages).image (fun i => block + 4096 * i) ⊆
      (Finset.range w.pages).image reached := by
    intro a ha
    obtain ⟨i, hi, rfl⟩ := Finset.mem_image.mp ha
    obtain ⟨v, tr, ⟨j, hj, hsame⟩, hwalk, haddr⟩ := hall i (Finset.mem_range.mp hi)
    refine Finset.mem_image.mpr ⟨j, Finset.mem_range.mpr hj, ?_⟩
    simp only [reached]
    rw [walk, indices_eq_iff.mpr hsame, ← walk, hwalk, Option.map_some, Option.getD_some, haddr]
  have hcard := (Finset.card_le_card hsub).trans Finset.card_image_le
  rw [Finset.card_image_of_injective _ (fun i j hij => by simpa using hij), Finset.card_range,
    Finset.card_range] at hcard
  omega

theorem stack_not_occupied (ram : Mem) (root stackAddr : Nat) :
    ¬Occupies ram root (Thread.stackWindow stackAddr).Covers stackAddr Thread.stackPages := by
  have hpages : (Thread.stackWindow stackAddr).pages = 16 := by
    show (Thread.stackWindowSize + 4095) / 4096 = 16
    decide
  have hstack : Thread.stackPages = 65536 := by decide
  exact not_occupies (by omega)

theorem Loading.added_thread (h : Loading new around k path k' t thread s₁ s₂ s₃) :
    (k'.sched.queue k.sched.curCpuCore).tail = some t ∧
      (k'.sched.threads t).rootTable = thread.rootTable := by
  rw [h.added]
  refine ⟨Scheduler.addThread_tail .., ?_⟩
  rw [Scheduler.addThread_rootTable, Scheduler.modifyThread_self]

theorem Loading.stack (h : Loading new around k path k' t thread s₁ s₂ s₃) :
    ∃ stackAddr s, s₂.alloc Thread.stackPages = some (stackAddr, s) := by
  have hcons := h.construct
  simp only [Thread.construct, Option.bind_eq_bind, Option.bind_eq_some_iff] at hcons
  obtain ⟨⟨stackAddr, s⟩, hstack, -⟩ := hcons
  exact ⟨stackAddr, s, hstack⟩

/-- For no thread and no executable do reserved and mapped pages coincide. -/
theorem load_not_coincide (hload : loadAndExecuteElf new around k path = some (0, k')) :
    ∃ t thread s₁ s₂ s₃ stackAddr s, Loading new around k path k' t thread s₁ s₂ s₃ ∧
      s₂.alloc Thread.stackPages = some (stackAddr, s) ∧
      ¬Coincide k'.pmm.ram thread.rootTable stackAddr k.sched.getCurCPU.kstackPhys
        (k.segments around path thread.rootTable s₃) := by
  obtain ⟨t, thread, s₁, s₂, s₃, h⟩ := loadAndExecuteElf_cases hload
  obtain ⟨stackAddr, s, hstack⟩ := h.stack
  exact ⟨t, thread, s₁, s₂, s₃, stackAddr, s, h, hstack,
    fun hcoincide => stack_not_occupied _ _ _ hcoincide.1⟩

theorem load_not_coincide_lowFile : ∃ k' t thread s₁ s₂ s₃ stackAddr s,
    loadAndExecuteElf heapWithRoom strayBytes (elfMachine lowFile) pathT = some (0, k') ∧
      Loading heapWithRoom strayBytes (elfMachine lowFile) pathT k' t thread s₁ s₂ s₃ ∧
      s₂.alloc Thread.stackPages = some (stackAddr, s) ∧
      ¬Coincide k'.pmm.ram thread.rootTable stackAddr 0
        ((elfMachine lowFile).segments strayBytes pathT thread.rootTable s₃) := by
  obtain ⟨k', hload⟩ := lowFile_load
  obtain ⟨t, thread, s₁, s₂, s₃, stackAddr, s, h, hstack, hnot⟩ := load_not_coincide hload
  exact ⟨k', t, thread, s₁, s₂, s₃, stackAddr, s, hload, h, hstack, hnot⟩

/-- Some page of its stack is mapped nowhere in the stack's window. -/
theorem lowFile_not_coincide : ¬∀ k' t thread s₁ s₂ s₃ stackAddr s,
    Loading heapWithRoom strayBytes (elfMachine lowFile) pathT k' t thread s₁ s₂ s₃ →
      s₂.alloc Thread.stackPages = some (stackAddr, s) →
      Coincide k'.pmm.ram thread.rootTable stackAddr 0
        ((elfMachine lowFile).segments strayBytes pathT thread.rootTable s₃) := by
  intro hclaim
  obtain ⟨k', hload⟩ := lowFile_load
  obtain ⟨t, thread, s₁, s₂, s₃, h⟩ := loadAndExecuteElf_cases hload
  obtain ⟨stackAddr, s, hstack⟩ := h.stack
  exact stack_not_occupied _ _ _ (hclaim k' t thread s₁ s₂ s₃ stackAddr s h hstack).1

theorem Loaded.mapped {used used' : List Nat}
    (h : Loaded own around k k' path root s₂ s₃ used used' stackAddr) (v : BitVec 64) :
    (VirtualMemory.leaf s₃.ram root v).isSome ↔ Thread.DefaultMapped k.boot k.pmm.mmap v := by
  rw [h.constructed.leaf v, Option.isSome_map, defaultCalls_isSome, h.grow.mmap]

theorem Loaded.preserved {used used' : List Nat}
    (h : Loaded own around k k' path root s₂ s₃ used used' stackAddr)
    (houtside : ∀ ph ∈ k.vfs.turns around path, ph.Loads →
      ¬Thread.DefaultMapped k.boot k.pmm.mmap ph.pVaddr) :
    Preserved root s₃.ram k'.pmm.ram := by
  intro v hv
  refine h.constructed.space.walk_congr h.extended.space (h.leaf_of_not fun ph hph hl hsame => ?_)
  rw [h.constructed.space.walk_eq, Option.isSome_map, h.mapped] at hv
  obtain ⟨w, hw, hcov⟩ := hv
  exact houtside ph hph hl ⟨w, hw, hcov.congr hsame.symm⟩

theorem Loaded.outside {used used' : List Nat}
    (h : Loaded own around k k' path root s₂ s₃ used used' stackAddr)
    (haligned : ∀ w ∈ Thread.windows k.boot k.pmm.mmap 0 k.sched.getCurCPU.kstackPhys,
      4096 ∣ w.phys.toNat)
    (hkept : Preserved root s₃.ram k'.pmm.ram) :
    ∀ ph ∈ k.vfs.turns around path, ph.Loads → ¬Thread.DefaultMapped k.boot k.pmm.mmap ph.pVaddr := by
  intro ph hph hl hdefault
  have hsome := (h.mapped ph.pVaddr).mpr hdefault
  have hleaf := leaf_congr (hkept ph.pVaddr (by rwa [h.constructed.space.walk_eq, Option.isSome_map]))
  obtain ⟨g, hg, -, hafter⟩ := h.leaf_of_phdr hph hl rfl
  rw [h.constructed.leaf] at hleaf hsome
  obtain ⟨c, hc⟩ := Option.isSome_iff_exists.mp (Option.isSome_map ▸ hsome)
  rw [hafter, hc] at hleaf
  exact h.entry_ne haligned hg (lastCall_some hc).1 (Option.some.inj hleaf).symm

theorem heapWithRoom_takesPages : New.TakesPages own heapWithRoom := by
  intro s n p s' hs h
  obtain ⟨-, rfl⟩ := Prod.mk.inj (Option.some.inj h)
  exact ⟨hs, .refl⟩

/-- A load keeps the mappings of the constructor exactly when no loadable
header has its address on one of their pages. -/
theorem load_preserved_iff (hnew : New.TakesPages own new) (hs : Sane own k.pmm)
    (hfit : ∀ ph ∈ k.vfs.turns around path, ph.Fits)
    (hload : loadAndExecuteElf new around k path = some (0, k')) :
    ∃ t thread s₁ s₂ s₃, Loading new around k path k' t thread s₁ s₂ s₃ ∧
      ((∀ ph ∈ k.vfs.turns around path, ph.Loads → ¬Thread.DefaultMapped k.boot k.pmm.mmap ph.pVaddr) →
        Preserved thread.rootTable s₃.ram k'.pmm.ram) ∧
      ((∀ w ∈ Thread.windows k.boot k.pmm.mmap 0 k.sched.getCurCPU.kstackPhys, 4096 ∣ w.phys.toNat) →
        Preserved thread.rootTable s₃.ram k'.pmm.ram →
          ∀ ph ∈ k.vfs.turns around path, ph.Loads →
          ¬Thread.DefaultMapped k.boot k.pmm.mmap ph.pVaddr) := by
  obtain ⟨t, thread, s₁, s₂, s₃, h⟩ := loadAndExecuteElf_cases hload
  obtain ⟨used, used', stackAddr, hloaded⟩ := h.loaded hnew hs hfit
  exact ⟨t, thread, s₁, s₂, s₃, h, hloaded.preserved, hloaded.outside⟩

end

theorem elfMachine_outside (file : List Byte) {v : BitVec 64} (hv : v.toNat % 2 ^ 48 < 2 ^ 47) :
    ¬Thread.DefaultMapped (elfMachine file).boot (elfMachine file).pmm.mmap v := by
  have hhigh : ∀ w ∈ Thread.windows (elfMachine []).boot (elfMachine []).pmm.mmap 0 0,
      w.HighHalf := by decide +kernel
  rintro ⟨w, hw, hcov⟩
  exact (hhigh w hw).not_covers hv hcov

theorem load_preserved_iff_lowFile : ∃ k' t thread s₁ s₂ s₃,
    loadAndExecuteElf heapWithRoom strayBytes (elfMachine lowFile) pathT = some (0, k') ∧
      Loading heapWithRoom strayBytes (elfMachine lowFile) pathT k' t thread s₁ s₂ s₃ ∧
      Preserved thread.rootTable s₃.ram k'.pmm.ram := by
  obtain ⟨k', hload⟩ := lowFile_load
  obtain ⟨t, thread, s₁, s₂, s₃, h, hkept, -⟩ :=
    load_preserved_iff heapWithRoom_takesPages elfMachine_sane lowFile_fits hload
  refine ⟨k', t, thread, s₁, s₂, s₃, hload, h, hkept ?_⟩
  refine (forall_turns_iff (P := fun ph => ph.Loads → ¬Thread.DefaultMapped _ _ ph.pVaddr)).mpr ?_
  rw [lowFile_phdrs]
  simpa using fun _ => elfMachine_outside lowFile (by decide)

/-- A segment can take the first page of the kernel. -/
theorem kernelFile_not_preserved : ∃ k' t thread s₁ s₂ s₃,
    loadAndExecuteElf heapWithRoom strayBytes (elfMachine kernelFile) pathT = some (0, k') ∧
      Loading heapWithRoom strayBytes (elfMachine kernelFile) pathT k' t thread s₁ s₂ s₃ ∧
      ¬Preserved thread.rootTable s₃.ram k'.pmm.ram := by
  obtain ⟨k', hload⟩ := kernelFile_load
  obtain ⟨t, thread, s₁, s₂, s₃, h⟩ := loadAndExecuteElf_cases hload
  obtain ⟨used, used', stackAddr, hloaded⟩ :=
    h.loaded heapWithRoom_takesPages elfMachine_sane kernelFile_fits
  refine ⟨k', t, thread, s₁, s₂, s₃, hload, h, fun hkept => ?_⟩
  have houtside := (forall_turns_iff (P := fun ph => ph.Loads → ¬Thread.DefaultMapped _ _ ph.pVaddr)).mp
    (hloaded.outside (by decide +kernel) hkept)
  rw [kernelFile_phdrs] at houtside
  refine houtside _ (List.mem_singleton_self _) (by decide)
    ⟨_, List.mem_cons_self, 0, by decide, by decide⟩

end LimineOS
