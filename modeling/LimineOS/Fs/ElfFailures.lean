import LimineOS.Fs.Failures
import LimineOS.Fs.ElfSegments
import Mathlib.Data.Finset.Insert
import Mathlib.Order.Lattice.Nat

/-!
# What a failed load leaves behind

A load that returns -1 has either failed to open the file or found another
magic number. The second leaves the buffer on the heap, always. The first
leaves no trace exactly when the descriptor that `VFS::open` files is filed
already, or no filesystem takes the path (`load_no_trace_iff`).
-/

namespace LimineOS

open ByteMemory Transition

/-- `new` adds one block to those that are live. -/
abbrev FreshBlock := { fresh : Finset Nat → Nat // ∀ heap, fresh heap ∉ heap }

inductive HeapBlock
  | filesystemNode (fd : BitVec 32)
  | fileNode (fd : BitVec 32)
  | object (id : Nat)

/-- A table has one node for each key that it holds; `heap` are the objects. -/
def liveBlocks (k : Kernel) (heap : Finset Nat) : Set HeapBlock
  | .filesystemNode fd => (k.vfs.openFilesystems.get fd).isSome
  | .fileNode fd => (k.vfs.world.openFiles.get fd).isSome
  | .object id => id ∈ heap

/-- The loader with the objects that it makes. Nothing is deleted. -/
def loadAndExecuteElfH (fresh : FreshBlock) (new : New) (around : Nat → Mem) (k : Kernel)
    (heap : Finset Nat)
    (path : CStr) : Option (BitVec 32 × Kernel × Finset Nat) :=
  let (fd, vfs) := k.vfs.openFile path
  if fd.toInt < 0 then some (-1, { k with vfs }, heap)
  else do
    let vfs := (vfs.lseek fd 0 seekEnd).2
    let (size, vfs) := vfs.tell fd
    let vfs := (vfs.lseek fd 0 seekSet).2
    let (_, pmm) ← new k.pmm size.toNat
    let heap := insert (fresh.1 heap) heap
    let ((_, copied), vfs) := vfs.read fd size
    let looks := bufferOf size.toNat copied around
    let vfs := (vfs.close fd).2
    if (readHeader (looks 0)).eIdent ≠ elfMagic then some (-1, { k with vfs, pmm }, heap)
    else do
      let (t, pmm) ← new pmm threadSize
      let heap := insert (fresh.1 heap) heap
      let (thread, pmm) ← Thread.construct k.boot k.sched.getCurCPU.kstackPhys pmm
        (readHeader (looks 1)).eEntry true
      let pmm ← (turnsOf looks).foldlM (loadPhdr thread.rootTable) pmm
      let sched := (k.sched.modifyThread t fun _ => thread).addThread t
      some (0, { k with vfs, pmm, sched }, heap)

theorem loadAndExecuteElfH_eq (fresh : FreshBlock) (new : New) (around : Nat → Mem) (k : Kernel)
    (heap : Finset Nat)
    (path : CStr) : loadAndExecuteElfH fresh new around k heap path =
      (if (k.vfs.openFile path).1.toInt < 0 then
        some (-1, { k with vfs := (k.vfs.openFile path).2 }, heap)
      else (new k.pmm (k.vfs.fileSize path).toNat).bind fun (_, pmm) =>
        let heap := insert (fresh.1 heap) heap
        if (readHeader (k.vfs.fileLooks around path 0)).eIdent ≠ elfMagic then
          some (-1, { k with vfs := k.vfs.fileRead path, pmm }, heap)
        else (new pmm threadSize).bind fun (t, pmm) =>
          let heap := insert (fresh.1 heap) heap
          (Thread.construct k.boot k.sched.getCurCPU.kstackPhys pmm
            (readHeader (k.vfs.fileLooks around path 1)).eEntry
            true).bind fun (thread, pmm) =>
            ((k.vfs.turns around path).foldlM (loadPhdr thread.rootTable) pmm).bind fun pmm =>
              some (0, { k with
                vfs := k.vfs.fileRead path
                pmm
                sched := (k.sched.modifyThread t fun _ => thread).addThread t }, heap) :
        Option (BitVec 32 × Kernel × Finset Nat)) :=
  rfl

structure SameResources (k : Kernel) (heap : Finset Nat) (k' : Kernel) (heap' : Finset Nat) : Prop where
  blocks : liveBlocks k' heap' = liveBlocks k heap
  bitmap : ∀ i, k'.pmm.bitmap.get k'.pmm.ram i = k.pmm.bitmap.get k.pmm.ram i
  queue : k'.sched = k.sched
  filesystems : k'.vfs.openFilesystems = k.vfs.openFilesystems
  files : k'.vfs.world.openFiles = k.vfs.world.openFiles

/-- No filesystem takes the path, or what an open that fails files is filed
already: -1, or with a file found the counter, where that is negative. -/
def VFS.FailsFiled (st : VFS Initrd) (path : CStr) : Prop :=
  ∀ fs i, st.resolve path = some (fs, i) →
    match st.world.lookup (path.skip fs.mountpoint.length) with
    | none => st.openFilesystems.get (-1) = some i
    | some j => st.world.curFd.toInt < 0 ∧ st.openFilesystems.get st.world.curFd = some i ∧
        st.world.openFiles.get st.world.curFd = some j

section
variable {mountpoints : List (List Byte)} {s : Initrd} {cs : List VfsCall} {fresh : FreshBlock}
  {new : New} {around : Nat → Mem}
  {k k' k'' : Kernel} {heap heap' heap'' : Finset Nat} {path : CStr} {paths : List CStr}
  {st : VFS Initrd}
  {r : BitVec 32}

theorem loadAndExecuteElfH_map :
    (loadAndExecuteElfH fresh new around k heap path).map (fun res => (res.1, res.2.1)) =
      loadAndExecuteElf new around k path := by
  rw [loadAndExecuteElfH_eq, loadAndExecuteElf_eq]
  by_cases hfd : (k.vfs.openFile path).1.toInt < 0
  · rw [if_pos hfd, if_pos hfd]
    rfl
  rw [if_neg hfd, if_neg hfd]
  cases new k.pmm (k.vfs.fileSize path).toNat with
  | none => rfl
  | some p =>
    simp only [Option.bind_some]
    by_cases hmagic : (readHeader (k.vfs.fileLooks around path 0)).eIdent = elfMagic
    · rw [if_neg (not_not.mpr hmagic), if_neg (not_not.mpr hmagic)]
      simp only [Option.map_bind, Function.comp_def, Option.map_some]
    · rw [if_pos hmagic, if_pos hmagic]
      rfl

theorem load_fails_cases (h : loadAndExecuteElfH fresh new around k heap path = some (-1, k', heap')) :
    ((k.vfs.openFile path).1.toInt < 0 ∧ k' = { k with vfs := (k.vfs.openFile path).2 } ∧
      heap' = heap) ∨ (0 ≤ (k.vfs.openFile path).1.toInt ∧ heap' = insert (fresh.1 heap) heap) := by
  have hfail : (0 : BitVec 32) ≠ -1 := by decide
  rw [loadAndExecuteElfH_eq] at h
  by_cases hfd : (k.vfs.openFile path).1.toInt < 0
  · rw [if_pos hfd] at h
    obtain ⟨-, h⟩ := Prod.mk.inj (Option.some.inj h)
    obtain ⟨rfl, rfl⟩ := Prod.mk.inj h
    exact .inl ⟨hfd, rfl, rfl⟩
  rw [if_neg hfd] at h
  obtain ⟨p, -, h⟩ := Option.bind_eq_some_iff.mp h
  dsimp only at h
  by_cases hmagic : (readHeader (k.vfs.fileLooks around path 0)).eIdent = elfMagic
  · rw [if_neg (not_not.mpr hmagic)] at h
    obtain ⟨t, -, h⟩ := Option.bind_eq_some_iff.mp h
    obtain ⟨c, -, h⟩ := Option.bind_eq_some_iff.mp h
    obtain ⟨pmm, -, h⟩ := Option.bind_eq_some_iff.mp h
    exact absurd (Prod.mk.inj (Option.some.inj h)).1 hfail
  · rw [if_pos hmagic] at h
    obtain ⟨-, h⟩ := Prod.mk.inj (Option.some.inj h)
    exact .inr ⟨not_lt.mp hfd, (Prod.mk.inj h).2.symm⟩

theorem VFS.InitrdsOnly.openFile_eq (h : st.InitrdsOnly) {fs : Filesystem Initrd} {i : Nat}
    (hr : st.resolve path = some (fs, i)) :
    st.openFile path =
      let (fd, world) := st.world.openFile (path.skip fs.mountpoint.length)
      (fd, { st with world, openFilesystems := st.openFilesystems.put fd i }) := by
  obtain ⟨mp, rfl⟩ := h.resolve hr
  simp only [VFS.openFile, hr]
  rfl

theorem VFS.InitrdsOnly.tables_eq_iff (h : st.InitrdsOnly) (hfd : (st.openFile path).1.toInt < 0) :
    ((st.openFile path).2.openFilesystems = st.openFilesystems ∧
      (st.openFile path).2.world.openFiles = st.world.openFiles) ↔ st.FailsFiled path := by
  cases hr : st.resolve path with
  | none =>
    refine iff_of_true ?_ fun fs i hsome => absurd (hr.symm.trans hsome) (by simp)
    simp only [VFS.openFile, hr, and_self]
  | some found =>
    obtain ⟨fs, i⟩ := found
    have hfiled : st.FailsFiled path ↔ match st.world.lookup (path.skip fs.mountpoint.length) with
        | none => st.openFilesystems.get (-1) = some i
        | some j => st.world.curFd.toInt < 0 ∧ st.openFilesystems.get st.world.curFd = some i ∧
            st.world.openFiles.get st.world.curFd = some j := by
      refine ⟨fun hall => hall fs i hr, fun hcase fs' i' hsome => ?_⟩
      obtain ⟨rfl, rfl⟩ := Prod.mk.inj (Option.some.inj (hr.symm.trans hsome))
      exact hcase
    rw [h.openFile_eq hr] at hfd ⊢
    rw [hfiled]
    cases hlookup : st.world.lookup (path.skip fs.mountpoint.length) with
    | none => simp only [Initrd.openFile_of_none hlookup, UnorderedMap.put_eq_self_iff, and_true]
    | some j =>
      simp only [Initrd.openFile_of_lookup hlookup] at hfd ⊢
      rw [UnorderedMap.put_eq_self_iff, UnorderedMap.put_eq_self_iff]
      exact (and_iff_right hfd).symm

theorem SameResources.refl : SameResources k heap k heap := ⟨rfl, fun _ => rfl, rfl, rfl, rfl⟩

theorem SameResources.trans (h : SameResources k heap k' heap')
    (h' : SameResources k' heap' k'' heap'') :
    SameResources k heap k'' heap'' :=
  ⟨h'.blocks.trans h.blocks, fun i => (h'.bitmap i).trans (h.bitmap i), h'.queue.trans h.queue,
    h'.filesystems.trans h.filesystems, h'.files.trans h.files⟩

theorem liveBlocks_congr (hfs : k'.vfs.openFilesystems = k.vfs.openFilesystems)
    (hfiles : k'.vfs.world.openFiles = k.vfs.world.openFiles) :
    liveBlocks k' heap = liveBlocks k heap := by
  funext b
  cases b <;> simp only [liveBlocks, hfs, hfiles]

theorem VFS.InitrdsOnly.not_failsFiled (h : st.InitrdsOnly) (hfd : 0 ≤ (st.openFile path).1.toInt) :
    ¬st.FailsFiled path := by
  intro hfiled
  have hneg : ¬(0 : Int) ≤ (-1 : BitVec 32).toInt := by decide
  cases hr : st.resolve path with
  | none =>
    simp only [VFS.openFile, hr] at hfd
    exact hneg hfd
  | some found =>
    obtain ⟨fs, i⟩ := found
    have hcase := hfiled fs i hr
    rw [h.openFile_eq hr] at hfd
    cases hlookup : st.world.lookup (path.skip fs.mountpoint.length) with
    | none =>
      rw [Initrd.openFile_of_none hlookup] at hfd
      exact hneg hfd
    | some j =>
      rw [Initrd.openFile_of_lookup hlookup] at hfd
      rw [hlookup] at hcase
      exact absurd hcase.1 (not_lt.mpr hfd)

theorem VFS.InitrdsOnly.load_no_trace (h : k.vfs.InitrdsOnly)
    (hfail : loadAndExecuteElfH fresh new around k heap path = some (-1, k', heap')) :
    SameResources k heap k' heap' ↔ k.vfs.FailsFiled path := by
  rcases load_fails_cases hfail with ⟨hfd, rfl, rfl⟩ | ⟨hfd, rfl⟩
  · rw [← h.tables_eq_iff hfd]
    exact ⟨fun hsame => ⟨hsame.filesystems, hsame.files⟩,
      fun ⟨hfs, hfiles⟩ => ⟨liveBlocks_congr hfs hfiles, fun _ => rfl, rfl, hfs, hfiles⟩⟩
  · -- the buffer is live
    refine iff_of_false (fun hsame => ?_) (h.not_failsFiled hfd)
    have hbuffer : HeapBlock.object (fresh.1 heap) ∈ liveBlocks k' (insert (fresh.1 heap) heap) :=
      Finset.mem_insert_self _ _
    rw [hsame.blocks] at hbuffer
    exact fresh.2 heap hbuffer

/-- The step of a load that fails. -/
def FailedLoad (fresh : FreshBlock) (new : New) (around : Nat → Mem) (st : Kernel × Finset Nat)
    (path : CStr)
    (st' : Kernel × Finset Nat) : Prop :=
  loadAndExecuteElfH fresh new around st.1 st.2 path = some (-1, st')

theorem VFS.InitrdsOnly.loads_no_trace {st : Kernel × Finset Nat} (h : k.vfs.InitrdsOnly)
    (hrun : Run (Guarded (fun st path => st.1.vfs.FailsFiled path) (FailedLoad fresh new around))
      (k, heap) paths st) :
    SameResources k heap st.1 st.2 := by
  have hkept : st.1.vfs.InitrdsOnly ∧ SameResources k heap st.1 st.2 := by
    refine hrun.invariant (I := fun st => st.1.vfs.InitrdsOnly ∧ SameResources k heap st.1 st.2)
      ⟨h, .refl⟩ ?_
    rintro ⟨k₁, heap₁⟩ path ⟨k₂, heap₂⟩ ⟨hinitrds, hsame⟩ ⟨hfiled, hload⟩
    have hstep := (hinitrds.load_no_trace hload).mpr hfiled
    rcases load_fails_cases hload with ⟨-, rfl, rfl⟩ | ⟨hfd, -⟩
    · have hfs : (k₁.vfs.openFile path).2.filesystems = k₁.vfs.filesystems :=
        VFS.call_filesystems (c := .openFile path)
      exact ⟨fun fs hmem => hinitrds fs (hfs ▸ hmem), hsame.trans hstep⟩
    · exact absurd hfiled (hinitrds.not_failsFiled hfd)
  exact hkept.2

/-- From every reachable state of the VFS, a load that fails leaves no trace
exactly where it fails on what is filed already, and so does any number of
them. -/
theorem load_no_trace_iff (hrun : Run (Steps VFS.step) (VFS.mountedAt mountpoints s) cs k.vfs) :
    (∀ path k' heap', loadAndExecuteElfH fresh new around k heap path = some (-1, k', heap') →
        (SameResources k heap k' heap' ↔ k.vfs.FailsFiled path)) ∧
      ∀ paths st,
        Run (Guarded (fun st path => st.1.vfs.FailsFiled path) (FailedLoad fresh new around))
          (k, heap) paths st →
        SameResources k heap st.1 st.2 :=
  have h := VFS.run_initrdsOnly hrun
  ⟨fun _ _ _ hfail => h.load_no_trace hfail, fun _ _ hruns => h.loads_no_trace hruns⟩

end

def nextBlock : FreshBlock where
  val heap := heap.sup id + 1
  property heap hmem := by
    have hle : heap.sup id + 1 ≤ heap.sup id := Finset.le_sup (f := id) hmem
    omega

def missedOnce : Kernel := { elfMachine [] with vfs := ((elfMachine []).vfs.openFile VFS.pathZ).2 }

theorem load_no_trace_iff_missedOnce : ∃ k' heap',
    loadAndExecuteElfH nextBlock heapWithRoom strayBytes missedOnce ∅ VFS.pathZ = some (-1, k', heap') ∧
      SameResources missedOnce ∅ k' heap' := by
  have hrun : Run (Steps VFS.step) (VFS.mountedAt [[0x2f]] (elfMachine []).vfs.world)
      [.openFile VFS.pathZ]
      missedOnce.vfs := .single rfl
  have hfd : (missedOnce.vfs.openFile VFS.pathZ).1.toInt < 0 := by decide +kernel
  have hload : loadAndExecuteElfH nextBlock heapWithRoom strayBytes missedOnce ∅ VFS.pathZ =
      some (-1, { missedOnce with vfs := (missedOnce.vfs.openFile VFS.pathZ).2 }, ∅) := by
    rw [loadAndExecuteElfH_eq, if_pos hfd]
  refine ⟨_, _, hload, ((load_no_trace_iff hrun).1 _ _ _ hload).mpr fun fs i hr => ?_⟩
  obtain ⟨rfl, rfl⟩ :=
    Prod.mk.inj (Option.some.inj ((show missedOnce.vfs.resolve VFS.pathZ = _ from rfl).symm.trans hr))
  rfl

theorem elfMachine_initrdsOnly (file : List Byte) : (elfMachine file).vfs.InitrdsOnly :=
  VFS.run_initrdsOnly
    (show Run (Steps VFS.step) (VFS.mountedAt [[0x2f]] (elfMachine file).vfs.world) []
      (elfMachine file).vfs from .nil)

/-- A load of a missing file files -1, and a load of four zeros leaves its
buffer. -/
theorem load_leaves_trace :
    (∃ k' heap', loadAndExecuteElfH nextBlock heapWithRoom strayBytes (elfMachine []) ∅ VFS.pathZ =
      some (-1, k', heap') ∧
        ¬SameResources (elfMachine []) ∅ k' heap') ∧
      ∃ k' heap', loadAndExecuteElfH nextBlock heapWithRoom strayBytes (elfMachine [0, 0, 0, 0]) ∅
        pathT = some (-1, k', heap') ∧ ¬SameResources (elfMachine [0, 0, 0, 0]) ∅ k' heap' := by
  constructor
  · have hfd : ((elfMachine []).vfs.openFile VFS.pathZ).1.toInt < 0 := by decide +kernel
    have hload : loadAndExecuteElfH nextBlock heapWithRoom strayBytes (elfMachine []) ∅ VFS.pathZ =
        some (-1, { elfMachine [] with vfs := ((elfMachine []).vfs.openFile VFS.pathZ).2 }, ∅) := by
      rw [loadAndExecuteElfH_eq, if_pos hfd]
    refine ⟨_, _, hload, fun hsame => ?_⟩
    have hfiled : (elfMachine []).vfs.openFilesystems.get (-1) = some 0 :=
      ((elfMachine_initrdsOnly []).load_no_trace hload).mp hsame _ 0 rfl
    have hnone : (elfMachine []).vfs.openFilesystems.get (-1) = none := rfl
    exact absurd (hnone.symm.trans hfiled) (by simp)
  · have hfd : 0 ≤ ((elfMachine [0, 0, 0, 0]).vfs.openFile pathT).1.toInt := by decide +kernel
    have hmagic : (readHeader ((elfMachine [0, 0, 0, 0]).vfs.fileLooks strayBytes pathT 0)).eIdent ≠
        elfMagic := by
      have hcopied : ((elfMachine [0, 0, 0, 0]).vfs.fileCopy pathT).map Copy.bytes =
          some [0, 0, 0, 0] := by
        decide +kernel
      rw [VFS.ident_eq hcopied (by decide) (by decide)]
      decide
    have hload : ∃ k', loadAndExecuteElfH nextBlock heapWithRoom strayBytes
        (elfMachine [0, 0, 0, 0]) ∅ pathT =
        some (-1, k', insert (nextBlock.1 ∅) ∅) := by
      rw [loadAndExecuteElfH_eq, if_neg (not_lt.mpr hfd)]
      simp only [heapWithRoom, Option.bind_some, if_pos hmagic]
      exact ⟨_, rfl⟩
    obtain ⟨k', hload⟩ := hload
    refine ⟨k', _, hload, fun hsame => ?_⟩
    exact (elfMachine_initrdsOnly _).not_failsFiled hfd
      (((elfMachine_initrdsOnly _).load_no_trace hload).mp hsame)

end LimineOS
