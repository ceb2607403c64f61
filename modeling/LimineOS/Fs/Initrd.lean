import LimineOS.Fs.Hash
import LimineOS.Util

/-!
# The initial ramdisk

The state behind `fs/initrd.cpp`: the counter of the next descriptor, the open
files and the list of files, each with the one position it has. A `FileInfo*`
is an index into the list, which only grows. `read` also returns what it
copies into the caller's buffer.
-/

namespace LimineOS

open ByteMemory

structure FileInfo where
  data : Nat
  size : BitVec 32
  name : CStr
  curPos : BitVec 64 := 0

structure Initrd where
  mem : Mem
  curFd : BitVec 32 := 0
  openFiles : UnorderedMap (BitVec 32) Nat (keyHash 10) := .empty
  files : List FileInfo := []

/-- What a `memcpy` out of a file copies: from which position, how much, and
the bytes it finds there. -/
structure Copy where
  curPos : BitVec 64
  count : BitVec 64
  bytes : List Byte
  deriving DecidableEq, Repr

def copyBytes (mem : Mem) (src count : Nat) : List Byte :=
  (List.range count).map fun i => mem (u64 (src + i))

def seekSet : BitVec 32 := 0
def seekCur : BitVec 32 := 1
def seekEnd : BitVec 32 := 2

namespace Initrd

def lookup (s : Initrd) (path : CStr) : Option Nat :=
  s.files.findIdx? fun f => strncmp f.name path 128 = 0

def info (s : Initrd) (fd : BitVec 32) : Option (Nat × FileInfo) := do
  let i ← s.openFiles.get fd
  let info ← s.files[i]?
  some (i, info)

def setPos (s : Initrd) (i : Nat) (pos : BitVec 64) : Initrd :=
  { s with files := s.files.modify i fun f => { f with curPos := pos } }

def openFile (s : Initrd) (path : CStr) : BitVec 32 × Initrd :=
  match s.lookup path with
  | none => (-1, s)
  | some i =>
    (s.curFd, { s.setPos i 0 with openFiles := s.openFiles.put s.curFd i, curFd := s.curFd + 1 })

def read (s : Initrd) (fd : BitVec 32) (count : BitVec 64) : (BitVec 64 × Option Copy) × Initrd :=
  match s.info fd with
  | none => ((-1, none), s)
  | some (i, info) =>
    if count + info.curPos > info.size.setWidth 64 then ((-1, none), s)
    else if info.data = 0 then ((-1, none), s)
    else
      let bytes := copyBytes s.mem (info.data + info.curPos.toNat) count.toNat
      ((count, some ⟨info.curPos, count, bytes⟩), s.setPos i (info.curPos + count))

def close (s : Initrd) (fd : BitVec 32) : BitVec 32 × Initrd :=
  let s := { s with curFd := s.curFd - 1 }
  match s.openFiles.get fd with
  | none => (-1, s)
  | some _ => (0, { s with openFiles := s.openFiles.remove fd })

def FileInfo.seek (info : FileInfo) (offset : BitVec 64) (whence : BitVec 32) : BitVec 64 :=
  if whence = seekSet then offset
  else if whence = seekCur then info.curPos + offset
  else if whence = seekEnd then info.size.setWidth 64 - offset
  else info.curPos

def lseek (s : Initrd) (fd : BitVec 32) (offset : BitVec 64) (whence : BitVec 32) :
    BitVec 64 × Initrd :=
  match s.info fd with
  | none => (-1, s)
  | some (i, info) =>
    let pos := FileInfo.seek info offset whence
    (pos, s.setPos i pos)

def tell (s : Initrd) (fd : BitVec 32) : BitVec 64 :=
  match s.info fd with
  | none => -1
  | some (_, info) => info.curPos

-- ---------------------------------------------------------------------------
-- What the operations leave alone
-- ---------------------------------------------------------------------------

section
variable {s : Initrd} {i : Nat} {pos : BitVec 64} {path : CStr} {fd : BitVec 32}

def names (s : Initrd) : List CStr := s.files.map FileInfo.name

@[simp] theorem setPos_openFiles : (s.setPos i pos).openFiles = s.openFiles := rfl

theorem setPos_files (s : Initrd) (i : Nat) (pos : BitVec 64) (j : Nat) :
    (s.setPos i pos).files[j]? = s.files[j]?.map fun f =>
      if i = j then { f with curPos := pos } else f := by
  rw [setPos, List.getElem?_modify]
  split_ifs <;> rfl

@[simp] theorem setPos_names : (s.setPos i pos).names = s.names := by
  apply List.ext_getElem?
  intro j
  rw [names, names, List.getElem?_map, List.getElem?_map, setPos_files, Option.map_map]
  congr 1
  funext f
  simp only [Function.comp_apply]
  split_ifs <;> rfl

theorem info_eq (s : Initrd) (fd : BitVec 32) :
    s.info fd = (s.openFiles.get fd).bind fun i => s.files[i]?.map fun f => (i, f) := by
  simp only [info, Option.map_eq_bind, Option.bind_eq_bind]
  rfl

theorem info_files {info : FileInfo} (h : s.info fd = some (i, info)) : s.files[i]? = some info := by
  obtain ⟨j, _, hj⟩ := Option.bind_eq_some_iff.mp h
  obtain ⟨f, hf, heq⟩ := Option.bind_eq_some_iff.mp hj
  obtain ⟨rfl, rfl⟩ := Prod.mk.inj (Option.some.inj heq)
  exact hf

theorem info_setPos (d : BitVec 32) :
    (s.setPos i pos).info d = (s.info d).map fun p =>
      (p.1, if i = p.1 then { p.2 with curPos := pos } else p.2) := by
  rw [info_eq, info_eq, setPos_openFiles]
  cases s.openFiles.get d with
  | none => rfl
  | some j =>
    rw [Option.bind_some, Option.bind_some, setPos_files, Option.map_map, Option.map_map]
    rfl

theorem lookup_eq : s.lookup path = s.names.findIdx? fun name => strncmp name path 128 = 0 := by
  rw [lookup, names, List.findIdx?_map]
  rfl

theorem read_state (s : Initrd) (fd : BitVec 32) (count : BitVec 64) :
    (s.read fd count).2 = s ∨ ∃ i pos, (s.read fd count).2 = s.setPos i pos := by
  unfold read
  split
  · exact .inl rfl
  · split_ifs
    · exact .inl rfl
    · exact .inl rfl
    · exact .inr ⟨_, _, rfl⟩

theorem lseek_state (s : Initrd) (fd : BitVec 32) (offset : BitVec 64) (whence : BitVec 32) :
    (s.lseek fd offset whence).2 = s ∨ ∃ i pos, (s.lseek fd offset whence).2 = s.setPos i pos := by
  unfold lseek
  split
  · exact .inl rfl
  · exact .inr ⟨_, _, rfl⟩

theorem openFile_of_lookup (h : s.lookup path = some i) :
    s.openFile path =
      (s.curFd,
        { s.setPos i 0 with openFiles := s.openFiles.put s.curFd i, curFd := s.curFd + 1 }) := by
  rw [openFile, h]

theorem openFile_of_none (h : s.lookup path = none) : s.openFile path = (-1, s) := by rw [openFile, h]

@[simp] theorem openFile_names : (s.openFile path).2.names = s.names := by
  cases h : s.lookup path with
  | none => rw [openFile_of_none h]
  | some i =>
    rw [openFile_of_lookup h]
    exact setPos_names

@[simp] theorem close_curFd : (s.close fd).2.curFd = s.curFd - 1 := by
  unfold close
  dsimp only
  split <;> rfl

@[simp] theorem close_names : (s.close fd).2.names = s.names := by
  unfold close
  dsimp only
  split <;> rfl

@[simp] theorem close_openFiles (d : BitVec 32) :
    (s.close fd).2.openFiles.get d = if d = fd then none else s.openFiles.get d := by
  unfold close
  dsimp only
  split
  · next h =>
    split_ifs with hd
    · rw [hd, h]
    · rfl
  · exact UnorderedMap.get_remove _ _ _

end

-- ---------------------------------------------------------------------------
-- The constructor
-- ---------------------------------------------------------------------------

structure LimineFile where
  address : Nat
  cmdline : CStr

def initrdName : List Byte := [0x69, 0x6e, 0x69, 0x74, 0x72, 0x64, 0x2e, 0x69, 0x6d, 0x67]

/-- The last module whose command line matches; the source leaves its pointer
uninitialised where none does. -/
def findModule (modules : List LimineFile) : Option LimineFile :=
  modules.foldl
    (fun found mod => if strncmp mod.cmdline (cstr initrdName) 10 = 0 then some mod else found) none

def headerSize : Nat := 72

/-- Entry `i` of the header table of the image at `address`. A name that fills
its 64 characters is taken to end there. -/
def fileInfo (mem : Mem) (address i : Nat) : FileInfo :=
  let hdr := address + 4 + i * headerSize
  { data := address + readLE mem hdr 4
    size := BitVec.ofNat 32 (readLE mem (hdr + 4) 4)
    name := fun j => if j < 64 then mem (hdr + 8 + j) else 0 }

/-- The constructor; `none` where it halts, and where it would go on with an
uninitialised pointer. -/
def construct (s : Initrd) (modules : List LimineFile) : Option Initrd :=
  if modules.length = 0 then none
  else do
    let initrdModule ← findModule modules
    let fileCount := readLE s.mem initrdModule.address 4
    some { s with files := s.files ++ (List.range fileCount).map (fileInfo s.mem initrdModule.address) }

end Initrd

end LimineOS
