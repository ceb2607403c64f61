import LimineOS.Fs.Chunks
import LimineOS.Lib.Reads
import LimineOS.Sched.Scheduler
import LimineOS.Sched.ThreadSpace

/-!
# Loading ELF files

`LoadAndExecuteElf` reads a whole file into a buffer, builds a thread and gives
it one block of pages for each loadable program header. Of a block it maps the
first page, and it copies the file's bytes to the start of the block.

The initrd's image and the kernel's heap are not in memory that `pmm` hands out
to others, so the initrd keeps its own view of the image and the buffer is a
memory of its own, from index 0. What `new` takes from the allocator is a
parameter. So is the memory that the loader finds there: `around 0` is what was
in the buffer before, and `around j` what lies around it at the `j`-th time that
the loader looks there.
-/

namespace LimineOS

open ByteMemory VirtualMemory

structure Kernel where
  vfs : VFS Initrd
  pmm : PhysicalMemory
  sched : Scheduler
  boot : BootInfo

/-- `malloc` behind `operator new`: the address of the object, and the
allocator's state. -/
abbrev New := PhysicalMemory → Nat → Option (Nat × PhysicalMemory)

structure Elf64Header where
  eIdent : List Byte
  eEntry : BitVec 64
  ePhoff : Nat
  ePhnum : Nat

structure Elf64Phdr where
  pType : Nat
  pOffset : Nat
  pVaddr : BitVec 64
  pFilesz : Nat
  pMemsz : Nat
  deriving DecidableEq, Repr

def elfMagic : List Byte := [0x7f, 0x45, 0x4c, 0x46]

def phdrSize : Nat := 56

def threadSize : Nat := 200

def readHeader (buf : Mem) : Elf64Header where
  eIdent := [buf 0, buf 1, buf 2, buf 3]
  eEntry := BitVec.ofNat 64 (readLE buf 24 8)
  ePhoff := readLE buf 32 8
  ePhnum := readLE buf 56 2

def readPhdr (buf : Mem) (phdr : Nat) : Elf64Phdr where
  pType := readLE buf phdr 4
  pOffset := readLE buf (phdr + 8) 8
  pVaddr := BitVec.ofNat 64 (readLE buf (phdr + 16) 8)
  pFilesz := readLE buf (phdr + 32) 8
  pMemsz := readLE buf (phdr + 40) 8

def readPhdrs (buf : Mem) (hdr : Elf64Header) : List Elf64Phdr :=
  (List.range hdr.ePhnum).map fun i => readPhdr buf (hdr.ePhoff + i * phdrSize)

/-- What one turn of the loop over the program headers reads: the header, and the
memory from which it copies. -/
structure Turn extends Elf64Phdr where
  source : Mem

/-- Each argument of a call is read just before the call. -/
def readTurn (looks : Nat → Mem) (phdr : Nat) : Turn :=
  { readPhdr (looks 0) phdr with
    pVaddr := (readPhdr (looks 1) phdr).pVaddr
    pOffset := (readPhdr (looks 2) phdr).pOffset
    pFilesz := (readPhdr (looks 2) phdr).pFilesz
    source := looks 3 }

def maxPhnum : Nat := 2 ^ 16

/-- `for (int i = 0; i < hdr->e_phnum; i++)`, with at most so many turns left. The
first two looks are those before the loop. -/
def turnsFrom (looks : Nat → Mem) (phdrs : Nat) : Nat → Nat → List Turn
  | 0, _ => []
  | left + 1, i =>
    if i < (readHeader (looks (5 * i + 2))).ePhnum then
      readTurn (fun j => looks (5 * i + 3 + j)) (phdrs + i * phdrSize) ::
        turnsFrom looks phdrs left (i + 1)
    else []

def turnsOf (looks : Nat → Mem) : List Turn := turnsFrom looks (readHeader (looks 0)).ePhoff maxPhnum 0

def Elf64Phdr.Loads (ph : Elf64Phdr) : Prop := ph.pType = 1 ∧ ph.pMemsz ≠ 0

instance (ph : Elf64Phdr) : Decidable ph.Loads := inferInstanceAs (Decidable (_ ∧ _))

def Elf64Phdr.pages (ph : Elf64Phdr) : Nat := if ph.pMemsz / 4096 < 1 then 1 else ph.pMemsz / 4096

def copyIn : Mem → Nat → Mem → Nat → Nat → Mem
  | ram, _, _, _, 0 => ram
  | ram, dest, buf, src, len + 1 =>
    copyIn (Function.update ram dest (buf src)) (dest + 1) buf (src + 1) len

def loadPhdr (rootTable : Nat) (s : PhysicalMemory) (ph : Turn) : Option PhysicalMemory :=
  if ph.Loads then do
    let (segment, s) ← s.alloc ph.pages
    let (s, _) ← mapPage s rootTable ph.pVaddr (BitVec.ofNat 64 segment) Thread.userFlags
    some { s with ram := copyIn s.ram segment ph.source ph.pOffset ph.pFilesz }
  else some s

/-- The memory from the buffer of `size` bytes on, after `VFS::read`, at look `j`.
Only the loader writes into the buffer. Offsets have 64 bits. -/
def bufferOf (size : Nat) (copied : Option Copy) (around : Nat → Mem) (j : Nat) : Mem := fun i =>
  ((copied.map Copy.bytes).getD [])[i % 2 ^ 64]?.getD
    (around (if i % 2 ^ 64 < size then 0 else j) (i % 2 ^ 64))

/-- `none` when an allocation halts the machine. -/
def loadAndExecuteElf (new : New) (around : Nat → Mem) (k : Kernel) (path : CStr) :
    Option (BitVec 32 × Kernel) :=
  let (fd, vfs) := k.vfs.openFile path
  if fd.toInt < 0 then some (-1, { k with vfs })
  else do
    let vfs := (vfs.lseek fd 0 seekEnd).2
    let (size, vfs) := vfs.tell fd
    let vfs := (vfs.lseek fd 0 seekSet).2
    let (_, pmm) ← new k.pmm size.toNat
    let ((_, copied), vfs) := vfs.read fd size
    let looks := bufferOf size.toNat copied around
    let vfs := (vfs.close fd).2
    if (readHeader (looks 0)).eIdent ≠ elfMagic then some (-1, { k with vfs, pmm })
    else do
      let (t, pmm) ← new pmm threadSize
      let (thread, pmm) ← Thread.construct k.boot k.sched.getCurCPU.kstackPhys pmm
        (readHeader (looks 1)).eEntry true
      let pmm ← (turnsOf looks).foldlM (loadPhdr thread.rootTable) pmm
      let sched := (k.sched.modifyThread t fun _ => thread).addThread t
      some (0, { k with vfs, pmm, sched })

-- ---------------------------------------------------------------------------
-- The file that is read
-- ---------------------------------------------------------------------------

def VFS.fileCopy (vfs : VFS Initrd) (path : CStr) : Option Copy :=
  let (fd, vfs) := vfs.openFile path
  let vfs := (vfs.lseek fd 0 seekEnd).2
  let (size, vfs) := vfs.tell fd
  let vfs := (vfs.lseek fd 0 seekSet).2
  (vfs.read fd size).1.2

def VFS.fileSize (vfs : VFS Initrd) (path : CStr) : BitVec 64 :=
  let (fd, vfs) := vfs.openFile path
  ((vfs.lseek fd 0 seekEnd).2.tell fd).1

/-- What the loader sees from the buffer on, each time that it looks. -/
def VFS.fileLooks (vfs : VFS Initrd) (around : Nat → Mem) (path : CStr) : Nat → Mem :=
  bufferOf (vfs.fileSize path).toNat (vfs.fileCopy path) around

/-- The program headers that a load of a path goes through, as it reads them. -/
def VFS.turns (vfs : VFS Initrd) (around : Nat → Mem) (path : CStr) : List Turn :=
  turnsOf (vfs.fileLooks around path)

/-- The VFS once the file has been read and closed. -/
def VFS.fileRead (vfs : VFS Initrd) (path : CStr) : VFS Initrd :=
  let (fd, vfs) := vfs.openFile path
  let vfs := (vfs.lseek fd 0 seekEnd).2
  let (size, vfs) := vfs.tell fd
  let vfs := (vfs.lseek fd 0 seekSet).2
  ((vfs.read fd size).2.close fd).2

theorem loadAndExecuteElf_eq (new : New) (around : Nat → Mem) (k : Kernel) (path : CStr) :
    loadAndExecuteElf new around k path =
      (if (k.vfs.openFile path).1.toInt < 0 then some (-1, { k with vfs := (k.vfs.openFile path).2 })
      else (new k.pmm (k.vfs.fileSize path).toNat).bind fun (_, pmm) =>
        if (readHeader (k.vfs.fileLooks around path 0)).eIdent ≠ elfMagic then
          some (-1, { k with vfs := k.vfs.fileRead path, pmm })
        else (new pmm threadSize).bind fun (t, pmm) =>
          (Thread.construct k.boot k.sched.getCurCPU.kstackPhys pmm
            (readHeader (k.vfs.fileLooks around path 1)).eEntry
            true).bind fun (thread, pmm) =>
            ((k.vfs.turns around path).foldlM (loadPhdr thread.rootTable) pmm).bind fun pmm =>
              some (0, { k with
                vfs := k.vfs.fileRead path
                pmm
                sched := (k.sched.modifyThread t fun _ => thread).addThread t }) :
                  Option (BitVec 32 × Kernel)) :=
  rfl

/-- The thread and the allocator with which a load comes to the loop over the
headers. -/
def Kernel.enterLoop (new : New) (around : Nat → Mem) (k : Kernel) (path : CStr) :
    Option (ThreadPtr × Thread × PhysicalMemory) :=
  if (k.vfs.openFile path).1.toInt < 0 then none
  else do
    let (_, pmm) ← new k.pmm (k.vfs.fileSize path).toNat
    if (readHeader (k.vfs.fileLooks around path 0)).eIdent ≠ elfMagic then none
    else do
      let (t, pmm) ← new pmm threadSize
      let (thread, pmm) ← Thread.construct k.boot k.sched.getCurCPU.kstackPhys pmm
        (readHeader (k.vfs.fileLooks around path 1)).eEntry true
      some (t, thread, pmm)

structure Loading (new : New) (around : Nat → Mem) (k : Kernel) (path : CStr) (k' : Kernel)
    (t : ThreadPtr)
    (thread : Thread) (s₁ s₂ s₃ : PhysicalMemory) : Prop where
  magic : (readHeader (k.vfs.fileLooks around path 0)).eIdent = elfMagic
  buffer : ∃ size p, new k.pmm size = some (p, s₁)
  object : new s₁ threadSize = some (t, s₂)
  construct : Thread.construct k.boot k.sched.getCurCPU.kstackPhys s₂
    (readHeader (k.vfs.fileLooks around path 1)).eEntry
    true = some (thread, s₃)
  segments : (k.vfs.turns around path).foldlM (loadPhdr thread.rootTable) s₃ = some k'.pmm
  added : k'.sched = (k.sched.modifyThread t fun _ => thread).addThread t

section
variable {new : New} {around : Nat → Mem} {k k' : Kernel} {path : CStr} {t : ThreadPtr}
  {thread : Thread}
  {s : PhysicalMemory}

theorem enterLoop_cases (h : k.enterLoop new around path = some (t, thread, s)) :
    ¬(k.vfs.openFile path).1.toInt < 0 ∧
      (readHeader (k.vfs.fileLooks around path 0)).eIdent = elfMagic ∧
      ∃ p s₁ s₂, new k.pmm (k.vfs.fileSize path).toNat = some (p, s₁) ∧
      new s₁ threadSize = some (t, s₂) ∧
        Thread.construct k.boot k.sched.getCurCPU.kstackPhys s₂
          (readHeader (k.vfs.fileLooks around path 1)).eEntry true =
          some (thread, s) := by
  unfold Kernel.enterLoop at h
  dsimp only at h
  split_ifs at h with hfd hmagic
  · simp at h
  · simp only [Option.bind_eq_bind, Option.bind_eq_some_iff] at h
    obtain ⟨⟨p, s₁⟩, hbuf, ⟨t', s₂⟩, hobj, ⟨thread', s₃⟩, hcons, h⟩ := h
    obtain ⟨rfl, rfl, rfl⟩ : t' = t ∧ thread' = thread ∧ s₃ = s := by simpa using h
    exact ⟨hfd, not_not.mp hmagic, p, s₁, s₂, hbuf, hobj, hcons⟩

theorem loadAndExecuteElf_of_enterLoop (h : k.enterLoop new around path = some (t, thread, s)) :
    loadAndExecuteElf new around k path =
      (((k.vfs.turns around path).foldlM (loadPhdr thread.rootTable) s).bind fun pmm =>
        some (0, { k with
          vfs := k.vfs.fileRead path
          pmm
          sched := (k.sched.modifyThread t fun _ => thread).addThread t }) :
            Option (BitVec 32 × Kernel)) := by
  obtain ⟨hfd, hmagic, p, s₁, s₂, hbuf, hobj, hcons⟩ := enterLoop_cases h
  rw [loadAndExecuteElf_eq]
  simp only [if_neg hfd, hbuf, Option.bind_some, if_neg (not_not.mpr hmagic), hobj, hcons]

theorem enterLoop_of_load (h : loadAndExecuteElf new around k path = some (0, k')) :
    ∃ t thread s, k.enterLoop new around path = some (t, thread, s) ∧
      (k.vfs.turns around path).foldlM (loadPhdr thread.rootTable) s = some k'.pmm := by
  have hfail : (-1 : BitVec 32) ≠ 0 := by decide
  rw [loadAndExecuteElf_eq] at h
  by_cases hfd : (k.vfs.openFile path).1.toInt < 0
  · rw [if_pos hfd] at h
    exact absurd (congrArg Prod.fst (Option.some.inj h)) hfail
  rw [if_neg hfd] at h
  obtain ⟨⟨p, s₁⟩, hbuf, h⟩ := Option.bind_eq_some_iff.mp h
  dsimp only at h
  by_cases hmagic : (readHeader (k.vfs.fileLooks around path 0)).eIdent = elfMagic
  · rw [if_neg (not_not.mpr hmagic)] at h
    obtain ⟨⟨t, s₂⟩, hobj, h⟩ := Option.bind_eq_some_iff.mp h
    obtain ⟨⟨thread, s₃⟩, hcons, h⟩ := Option.bind_eq_some_iff.mp h
    obtain ⟨s₄, hseg, h⟩ := Option.bind_eq_some_iff.mp h
    obtain ⟨-, rfl⟩ := Prod.mk.inj (Option.some.inj h)
    refine ⟨t, thread, s₃, ?_, hseg⟩
    simp only [Kernel.enterLoop, if_neg hfd, hbuf, Option.bind_eq_bind, Option.bind_some,
      if_neg (not_not.mpr hmagic), hobj, hcons]
  · rw [if_pos hmagic] at h
    exact absurd (congrArg Prod.fst (Option.some.inj h)) hfail

theorem loadAndExecuteElf_cases (h : loadAndExecuteElf new around k path = some (0, k')) :
    ∃ t thread s₁ s₂ s₃, Loading new around k path k' t thread s₁ s₂ s₃ := by
  obtain ⟨t, thread, s₃, henter, hseg⟩ := enterLoop_of_load h
  obtain ⟨-, hmagic, p, s₁, s₂, hbuf, hobj, hcons⟩ := enterLoop_cases henter
  rw [loadAndExecuteElf_of_enterLoop henter, hseg] at h
  obtain ⟨-, hk⟩ := Prod.mk.inj (Option.some.inj h)
  exact ⟨t, thread, s₁, s₂, s₃, hmagic, ⟨_, p, hbuf⟩, hobj, hcons, hseg, congrArg Kernel.sched hk.symm⟩

end

-- ---------------------------------------------------------------------------
-- Files that hold their headers
-- ---------------------------------------------------------------------------

theorem readHeader_congr {buf file : Mem} (h : Set.EqOn buf file (span 0 64)) :
    readHeader buf = readHeader file := by
  have hfield : ∀ a n, a + n ≤ 64 → readLE buf a n = readLE file a n := fun a n hle =>
    readLE_congr (h.mono (span_subset (by omega) (by omega)))
  have hbyte : ∀ a < 64, buf a = file a := fun a ha => h ⟨by omega, by omega⟩
  simp only [readHeader, hfield 24 8 (by omega), hfield 32 8 (by omega), hfield 56 2 (by omega),
    hbyte 0 (by omega), hbyte 1 (by omega), hbyte 2 (by omega), hbyte 3 (by omega)]

theorem readPhdr_congr {buf file : Mem} {a : Nat} (h : Set.EqOn buf file (span a phdrSize)) :
    readPhdr buf a = readPhdr file a := by
  have hfield : ∀ b n, a ≤ b → b + n ≤ a + 56 → readLE buf b n = readLE file b n := fun b n hle hlt =>
    readLE_congr (h.mono (span_subset hle hlt))
  simp only [readPhdr, hfield a 4 (by omega) (by omega), hfield (a + 8) 8 (by omega) (by omega),
    hfield (a + 16) 8 (by omega) (by omega), hfield (a + 32) 8 (by omega) (by omega),
    hfield (a + 40) 8 (by omega) (by omega)]

section
variable {looks : Nat → Mem} {file : Mem} {phdrs left i size : Nat} {turn : Turn}

theorem turnsFrom_source (h : turn ∈ turnsFrom looks phdrs left i) : ∃ j, turn.source = looks j := by
  induction left generalizing i with
  | zero => exact absurd h List.not_mem_nil
  | succ left ih =>
    rw [turnsFrom] at h
    split_ifs at h with hi
    · rcases List.mem_cons.mp h with rfl | h
      · exact ⟨_, rfl⟩
      · exact ih h
    · exact absurd h List.not_mem_nil

theorem readTurn_phdr (h : ∀ j, Set.EqOn (looks j) file (span phdrs phdrSize)) :
    (readTurn looks phdrs).toElf64Phdr = readPhdr file phdrs := by
  simp only [readTurn, readPhdr_congr (h _)]

theorem turnsFrom_phdrs (h : ∀ j, Set.EqOn (looks j) file (span 0 size)) (hheader : 64 ≤ size)
    (htable : ∀ i < (readHeader file).ePhnum, phdrs + i * phdrSize + phdrSize ≤ size)
    (hleft : (readHeader file).ePhnum ≤ i + left) :
    (turnsFrom looks phdrs left i).map Turn.toElf64Phdr =
      (List.range' i ((readHeader file).ePhnum - i)).map fun j =>
        readPhdr file (phdrs + j * phdrSize) := by
  have hnum : ∀ j, (readHeader (looks j)).ePhnum = (readHeader file).ePhnum := fun j =>
    congrArg Elf64Header.ePhnum (readHeader_congr ((h j).mono (span_subset (le_refl 0) (by omega))))
  induction left generalizing i with
  | zero =>
    have hnone : (readHeader file).ePhnum - i = 0 := by omega
    rw [hnone]
    rfl
  | succ left ih =>
    rw [turnsFrom, hnum]
    by_cases hi : i < (readHeader file).ePhnum
    · have hrest : (readHeader file).ePhnum - i = ((readHeader file).ePhnum - (i + 1)) + 1 := by omega
      have hin := htable i hi
      rw [if_pos hi, hrest, List.range'_succ, List.map_cons, List.map_cons, ih (by omega),
        readTurn_phdr fun j => (h _).mono (span_subset (Nat.zero_le _) (by omega))]
    · have hnone : (readHeader file).ePhnum - i = 0 := by omega
      rw [if_neg hi, hnone]
      rfl

theorem turnsOf_phdrs (h : ∀ j, Set.EqOn (looks j) file (span 0 size)) (hheader : 64 ≤ size)
    (htable : (readHeader file).ePhnum = 0 ∨
      (readHeader file).ePhoff + (readHeader file).ePhnum * phdrSize ≤ size) :
    (turnsOf looks).map Turn.toElf64Phdr = readPhdrs file (readHeader file) := by
  have hoff : readHeader (looks 0) = readHeader file :=
    readHeader_congr ((h 0).mono (span_subset (le_refl 0) (by omega)))
  have hlt : (readHeader file).ePhnum < 256 ^ 2 := readLE_lt ..
  have hmax : maxPhnum = 256 ^ 2 := rfl
  rw [turnsOf, hoff, turnsFrom_phdrs h hheader (fun i hi => ?_) (by omega), Nat.sub_zero,
    ← List.range_eq_range', readPhdrs]
  have hle := Nat.mul_le_mul_right phdrSize (Nat.succ_le_of_lt hi)
  rw [Nat.succ_mul] at hle
  omega

theorem forall_turns_iff {turns : List Turn} {P : Elf64Phdr → Prop} :
    (∀ turn ∈ turns, P turn.toElf64Phdr) ↔ ∀ ph ∈ turns.map Turn.toElf64Phdr, P ph :=
  List.forall_mem_map.symm

theorem bufferOf_eqOn {c : Copy} {around : Nat → Mem} {j : Nat} (hlen : c.bytes.length ≤ 2 ^ 64) :
    Set.EqOn (bufferOf size (some c) around j) (bytesMem c.bytes) (span 0 c.bytes.length) := by
  intro x hx
  have hlt : x < c.bytes.length := by
    have hx' := hx.2
    omega
  rw [bufferOf, Nat.mod_eq_of_lt (by omega), bytesMem, List.getD_eq_getElem?_getD, Option.map_some,
    Option.getD_some, List.getElem?_eq_getElem hlt, Option.getD_some, Option.getD_some]

theorem bufferOf_steady {copied : Option Copy} {around : Nat → Mem} {j : Nat} (hsize : size ≤ 2 ^ 64) :
    Set.EqOn (bufferOf size copied around j) (bufferOf size copied around 0) (span 0 size) := by
  intro x hx
  have hlt : x < size := by
    have hx' := hx.2
    omega
  rw [bufferOf, bufferOf, Nat.mod_eq_of_lt (by omega), if_pos hlt, if_pos hlt]

end

-- ---------------------------------------------------------------------------
-- Files that are read whole
-- ---------------------------------------------------------------------------

namespace VFS

section
variable {vfs : VFS Initrd} {around : Nat → Mem} {path : CStr} {bs : List Byte} {mp : List Byte}
  {i j : Nat}
  {f : FileInfo}

theorem fileLooks_steady (j : Nat) :
    Set.EqOn (vfs.fileLooks around path j) (vfs.fileLooks around path 0)
    (span 0 (vfs.fileSize path).toNat) :=
  bufferOf_steady (vfs.fileSize path).isLt.le

theorem fileLooks_eqOn (h : (vfs.fileCopy path).map Copy.bytes = some bs)
    (hlen : bs.length ≤ 2 ^ 64) (j : Nat) :
    Set.EqOn (vfs.fileLooks around path j) (bytesMem bs) (span 0 bs.length) := by
  obtain ⟨c, hc, rfl⟩ := Option.map_eq_some_iff.mp h
  rw [fileLooks, hc]
  exact bufferOf_eqOn hlen

theorem ident_eq (h : (vfs.fileCopy path).map Copy.bytes = some bs) (hlen : bs.length ≤ 2 ^ 64)
    (hle : 4 ≤ bs.length)
    {j : Nat} : (readHeader (vfs.fileLooks around path j)).eIdent =
      (readHeader (bytesMem bs)).eIdent := by
  have hbyte : ∀ i < 4, vfs.fileLooks around path j i = bytesMem bs i := fun i hi =>
    fileLooks_eqOn h hlen j ⟨Nat.zero_le _, by omega⟩
  simp only [readHeader, hbyte 0 (by omega), hbyte 1 (by omega), hbyte 2 (by omega), hbyte 3 (by omega)]

theorem turns_eq (h : (vfs.fileCopy path).map Copy.bytes = some bs) (hlen : bs.length ≤ 2 ^ 64)
    (hheader : 64 ≤ bs.length)
    (htable : (readHeader (bytesMem bs)).ePhnum = 0 ∨
      (readHeader (bytesMem bs)).ePhoff + (readHeader (bytesMem bs)).ePhnum * phdrSize ≤ bs.length) :
    (vfs.turns around path).map Turn.toElf64Phdr = readPhdrs (bytesMem bs) (readHeader (bytesMem bs)) :=
  turnsOf_phdrs (fileLooks_eqOn h hlen) hheader htable

theorem fileCopy_eq (hr : vfs.resolve path = some (initrdFilesystem mp, j))
    (hi : vfs.world.lookup (path.skip mp.length) = some i) (hf : vfs.world.files[i]? = some f)
    (hdata : f.data ≠ 0) :
    vfs.fileCopy path = some ⟨0, f.size.setWidth 64, vfs.world.contents f⟩ := by
  obtain ⟨hopen, hmem⟩ := openFile_serves hr hi hf
  have hsize : (f.size.setWidth 64).toNat = f.size.toNat := by
    rw [BitVec.toNat_setWidth, Nat.mod_eq_of_lt (f.size.isLt.trans (by decide))]
  have hseek : Initrd.FileInfo.seek { f with curPos := 0 } 0 seekEnd = f.size.setWidth 64 := by
    simp [Initrd.FileInfo.seek, seekEnd, seekSet, seekCur]
  have hend := hopen.setPos (Initrd.FileInfo.seek { f with curPos := 0 } 0 seekEnd)
  have hset := hend.setPos 0
  unfold fileCopy
  dsimp only
  rw [hopen.lseek_eq, hend.tell_eq, hend.lseek_eq]
  have hread := @Serves.read_eq _ _ _ _ (f.size.setWidth 64) hset hdata (by
    show 0 + (f.size.setWidth 64).toNat ≤ f.size.toNat
    omega)
  rw [← hseek] at hread ⊢
  refine (congrArg (·.1.2) hread).trans ?_
  rw [hseek]
  show some (Copy.mk 0 (f.size.setWidth 64)
    (copyBytes (vfs.openFile path).2.world.mem (f.data + 0) _)) = _
  rw [hmem, hsize, Nat.add_zero, Initrd.copyBytes_contents]

end

end VFS

end LimineOS
