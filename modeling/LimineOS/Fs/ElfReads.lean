import LimineOS.Fs.ElfMappings

/-!
# The reads of a load

The loader looks at the magic number and at nothing else before it follows the
file's own offsets and lengths. It stays inside the buffer, and returns -1 for
a file that does not lie inside, exactly when the file does lie inside or has
another magic number, and the pages are there (`load_inside_iff`).
-/

namespace LimineOS

open ByteMemory Logged PhysicalMemory VirtualMemory

-- ---------------------------------------------------------------------------
-- The loader with a log of the buffer's bytes
-- ---------------------------------------------------------------------------

def copyInL : Mem → Nat → Mem → Nat → Nat → Logged Nat Mem
  | ram, _, _, _, 0 => pure ram
  | ram, dest, buf, src, len + 1 => do
    let b ← readByteL buf src
    copyInL (Function.update ram dest b) (dest + 1) buf (src + 1) len

/-- The four fields that are printed are read for each header, the rest only for
a loadable one. -/
def loadPhdrL (rootTable : Nat) (looks : Nat → Mem) (s : PhysicalMemory) (phdr : Nat) :
    Logged Nat (Option PhysicalMemory) := do
  let type ← readLEL (looks 0) phdr 4
  let _ ← readLEL (looks 0) (phdr + 16) 8
  let _ ← readLEL (looks 0) (phdr + 32) 8
  let memsz ← readLEL (looks 0) (phdr + 40) 8
  if ¬(type = 1 ∧ memsz ≠ 0) then pure (some s)
  else
    match s.alloc (if memsz / 4096 < 1 then 1 else memsz / 4096) with
    | none => pure none
    | some (segment, s) => do
      let vaddr ← readLEL (looks 1) (phdr + 16) 8
      match mapPage s rootTable (BitVec.ofNat 64 vaddr) (BitVec.ofNat 64 segment) Thread.userFlags with
      | none => pure none
      | some (s, _) => do
        let offset ← readLEL (looks 2) (phdr + 8) 8
        let filesz ← readLEL (looks 2) (phdr + 32) 8
        let ram ← copyInL s.ram segment (looks 3) offset filesz
        pure (some { s with ram })

def loadPhdrsL (rootTable : Nat) (looks : Nat → Mem) (phdrs : Nat) :
    Nat → Nat → PhysicalMemory → Logged Nat (Option PhysicalMemory)
  | 0, _, s => pure (some s)
  | left + 1, i, s => do
    let phnum ← readLEL (looks (5 * i + 2)) 56 2
    if i < phnum then
      match ← loadPhdrL rootTable (fun j => looks (5 * i + 3 + j)) s (phdrs + i * phdrSize) with
      | none => pure none
      | some s => loadPhdrsL rootTable looks phdrs left (i + 1) s
    else pure (some s)

def loadTurnsL (rootTable : Nat) (looks : Nat → Mem) (phdrs : Nat) (s : PhysicalMemory) :
    Logged Nat (Option PhysicalMemory) :=
  loadPhdrsL rootTable looks phdrs maxPhnum 0 s

/-- What is done with the buffer. A file with another magic number has all four
bytes printed. -/
def loadBufferL (new : New) (k : Kernel) (vfs : VFS Initrd) (pmm : PhysicalMemory) (looks : Nat → Mem) :
    Logged Nat (Option (BitVec 32 × Kernel)) := do
  let ident ← readBytesL (looks 0) 0 4
  if ident ≠ elfMagic then pure (some (-1, { k with vfs, pmm }))
  else do
    let phoff ← readLEL (looks 0) 32 8
    let entry ← readLEL (looks 1) 24 8
    match new pmm threadSize with
    | none => pure none
    | some (t, pmm) =>
      match Thread.construct k.boot k.sched.getCurCPU.kstackPhys pmm (BitVec.ofNat 64 entry) true with
      | none => pure none
      | some (thread, pmm) => do
        let loaded ← loadTurnsL thread.rootTable looks phoff pmm
        pure (loaded.map fun pmm =>
          (0, { k with vfs, pmm, sched := (k.sched.modifyThread t fun _ => thread).addThread t }))

def loadAndExecuteElfL (new : New) (around : Nat → Mem) (k : Kernel) (path : CStr) :
    Logged Nat (Option (BitVec 32 × Kernel)) :=
  let (fd, vfs) := k.vfs.openFile path
  if fd.toInt < 0 then pure (some (-1, { k with vfs }))
  else
    let vfs := (vfs.lseek fd 0 seekEnd).2
    let (size, vfs) := vfs.tell fd
    let vfs := (vfs.lseek fd 0 seekSet).2
    match new k.pmm size.toNat with
    | none => pure none
    | some (_, pmm) =>
      let ((_, copied), vfs) := vfs.read fd size
      loadBufferL new k (vfs.close fd).2 pmm (bufferOf size.toNat copied around)

theorem loadAndExecuteElfL_eq (new : New) (around : Nat → Mem) (k : Kernel) (path : CStr) :
    loadAndExecuteElfL new around k path =
      if (k.vfs.openFile path).1.toInt < 0 then
        pure (some (-1, { k with vfs := (k.vfs.openFile path).2 }))
      else
        match new k.pmm (k.vfs.fileSize path).toNat with
        | none => pure none
        | some (_, pmm) => loadBufferL new k (k.vfs.fileRead path) pmm (k.vfs.fileLooks around path) :=
  rfl

section
variable {new : New} {around looks : Nat → Mem} {k k' : Kernel} {path : CStr}
  {root dest src len a phdr phdrs left i size : Nat} {s : PhysicalMemory} {buf ram file : Mem}
  {vfs : VFS Initrd}

@[simp] theorem copyInL_val : (copyInL ram dest buf src len).val = copyIn ram dest buf src len := by
  induction len generalizing ram dest src with
  | zero => rfl
  | succ len ih => rw [copyInL, val_bind, ih, copyIn, readByteL, val_use]

theorem loadPhdrL_val : (loadPhdrL root looks s phdr).val = loadPhdr root s (readTurn looks phdr) := by
  simp only [loadPhdrL, val_bind, readLEL_val]
  have hloads : (readLE (looks 0) phdr 4 = 1 ∧ readLE (looks 0) (phdr + 40) 8 ≠ 0) ↔
      (readTurn looks phdr).Loads := Iff.rfl
  by_cases hl : (readTurn looks phdr).Loads
  · have hpages :
        (if readLE (looks 0) (phdr + 40) 8 / 4096 < 1 then 1
          else readLE (looks 0) (phdr + 40) 8 / 4096) =
        (readTurn looks phdr).pages := rfl
    rw [if_neg (not_not.mpr (hloads.mpr hl)), loadPhdr, if_pos hl, hpages]
    cases s.alloc (readTurn looks phdr).pages with
    | none => rfl
    | some p =>
      obtain ⟨segment, s₁⟩ := p
      have hvaddr : BitVec.ofNat 64 (readLE (looks 1) (phdr + 16) 8) =
          (readTurn looks phdr).pVaddr := rfl
      simp only [val_bind, readLEL_val, Option.bind_eq_bind, Option.bind_some, hvaddr]
      cases mapPage s₁ root (readTurn looks phdr).pVaddr (BitVec.ofNat 64 segment) Thread.userFlags with
      | none => rfl
      | some m =>
        simp only [val_bind, readLEL_val, copyInL_val, val_pure, Option.bind_some]
        rfl
  · rw [if_pos (hl ∘ hloads.mp), loadPhdr, if_neg hl, val_pure]

theorem loadPhdrsL_val :
    (loadPhdrsL root looks phdrs left i s).val =
      (turnsFrom looks phdrs left i).foldlM (loadPhdr root) s := by
  induction left generalizing i s with
  | zero => rfl
  | succ left ih =>
    have hnum : readLE (looks (5 * i + 2)) 56 2 = (readHeader (looks (5 * i + 2))).ePhnum := rfl
    rw [loadPhdrsL, val_bind, readLEL_val, hnum, turnsFrom]
    split_ifs with hi
    · rw [val_bind, loadPhdrL_val, List.foldlM_cons]
      cases loadPhdr root s (readTurn (fun j => looks (5 * i + 3 + j)) (phdrs + i * phdrSize)) with
      | none => rfl
      | some s => exact ih
    · rfl

theorem loadTurnsL_val :
    (loadTurnsL root looks (readHeader (looks 0)).ePhoff s).val =
      (turnsOf looks).foldlM (loadPhdr root) s :=
  loadPhdrsL_val

theorem readBytesL_ident : (readBytesL buf 0 4).val = (readHeader buf).eIdent := by
  rw [readBytesL_val]
  simp only [Nat.zero_add]
  rfl

theorem loadBufferL_val (new : New) (k : Kernel) (vfs : VFS Initrd) (pmm : PhysicalMemory)
    (looks : Nat → Mem) :
    (loadBufferL new k vfs pmm looks).val =
      (if (readHeader (looks 0)).eIdent ≠ elfMagic then some (-1, { k with vfs, pmm })
      else (new pmm threadSize).bind fun (t, pmm) =>
        (Thread.construct k.boot k.sched.getCurCPU.kstackPhys pmm (readHeader (looks 1)).eEntry
          true).bind
          fun (thread, pmm) =>
            ((turnsOf looks).foldlM (loadPhdr thread.rootTable) pmm).bind fun pmm =>
              some (0,
                { k with vfs, pmm, sched := (k.sched.modifyThread t fun _ => thread).addThread t }) :
        Option (BitVec 32 × Kernel)) := by
  simp -implicitDefEqProofs only [loadBufferL, val_bind, readBytesL_ident]
  split_ifs with hmagic
  · rfl
  · cases new pmm threadSize with
    | none => rfl
    | some p =>
      obtain ⟨t, s₂⟩ := p
      have hentry : BitVec.ofNat 64 (readLE (looks 1) 24 8) = (readHeader (looks 1)).eEntry := rfl
      simp -implicitDefEqProofs only [val_bind, readLEL_val, Option.bind_some, hentry]
      cases Thread.construct k.boot k.sched.getCurCPU.kstackPhys s₂ (readHeader (looks 1)).eEntry
        true with
      | none => rfl
      | some c =>
        obtain ⟨thread, s₃⟩ := c
        have hphoff : readLE (looks 0) 32 8 = (readHeader (looks 0)).ePhoff := rfl
        simp -implicitDefEqProofs only [val_bind, val_pure, Option.bind_some, hphoff, loadTurnsL_val]
        generalize (turnsOf looks).foldlM (loadPhdr thread.rootTable) s₃ = loaded
        exact Option.map_eq_bind

theorem loadAndExecuteElfL_val :
    (loadAndExecuteElfL new around k path).val = loadAndExecuteElf new around k path := by
  rw [loadAndExecuteElfL_eq, loadAndExecuteElf_eq]
  by_cases hfd : (k.vfs.openFile path).1.toInt < 0
  · rw [if_pos hfd, if_pos hfd, val_pure]
  · rw [if_neg hfd, if_neg hfd]
    cases new k.pmm (k.vfs.fileSize path).toNat with
    | none => rfl
    | some p =>
      simp only [loadBufferL_val, Option.bind_some]
      rfl

-- ---------------------------------------------------------------------------
-- Files that lie inside
-- ---------------------------------------------------------------------------

/-- The header, the table and the contents of the segments are among the first
`size` bytes. -/
structure LiesInside (file : Mem) (size : Nat) : Prop where
  header : 64 ≤ size
  table : (readHeader file).ePhnum = 0 ∨
    (readHeader file).ePhoff + (readHeader file).ePhnum * phdrSize ≤ size
  contents : ∀ ph ∈ readPhdrs file (readHeader file), ph.pType = 1 →
    ph.pFilesz = 0 ∨ ph.pOffset + ph.pFilesz ≤ size

/-- The file lies inside, or it has another magic number, in four bytes at least. -/
structure VFS.Contained (vfs : VFS Initrd) (around : Nat → Mem) (path : CStr) : Prop where
  inside : (readHeader (vfs.fileLooks around path 0)).eIdent = elfMagic →
    LiesInside (vfs.fileLooks around path 0) (vfs.fileSize path).toNat
  other : (readHeader (vfs.fileLooks around path 0)).eIdent ≠ elfMagic → 4 ≤ (vfs.fileSize path).toNat

theorem LiesInside.turns (h : LiesInside (k.vfs.fileLooks around path 0) (k.vfs.fileSize path).toNat) :
    (k.vfs.turns around path).map Turn.toElf64Phdr =
      readPhdrs (k.vfs.fileLooks around path 0) (readHeader (k.vfs.fileLooks around path 0)) :=
  turnsOf_phdrs VFS.fileLooks_steady h.header h.table

end

end LimineOS
