import LimineOS.Fs.Initrd
import LimineOS.Lib.Transition

/-!
# The virtual filesystem

A mounted filesystem is its mount point and its five operations over a state
that all filesystems share. `VFS` routes a call to the filesystem that opened
the descriptor; a `Filesystem*` is an index into the list of mounts. For runs,
`VfsCall` and `Result` give the operations one type.
-/

namespace LimineOS

open ByteMemory Transition

structure Filesystem (σ : Type) where
  mountpoint : List Byte
  openFile : σ → CStr → BitVec 32 × σ
  read : σ → BitVec 32 → BitVec 64 → (BitVec 64 × Option Copy) × σ
  close : σ → BitVec 32 → BitVec 32 × σ
  lseek : σ → BitVec 32 → BitVec 64 → BitVec 32 → BitVec 64 × σ
  tell : σ → BitVec 32 → BitVec 64 × σ

def initrdFilesystem (mountpoint : List Byte) : Filesystem Initrd where
  mountpoint := mountpoint
  openFile := Initrd.openFile
  read := Initrd.read
  close := Initrd.close
  lseek := Initrd.lseek
  tell s fd := (s.tell fd, s)

structure VFS (σ : Type) where
  filesystems : List (Filesystem σ) := []
  openFilesystems : UnorderedMap (BitVec 32) Nat (keyHash 10) := .empty
  world : σ

namespace VFS

variable {σ : Type}

def mount (s : VFS σ) (fs : Filesystem σ) : VFS σ := { s with filesystems := s.filesystems ++ [fs] }

/-- The last filesystem whose mount point `strncmp` finds at the start of the
path. -/
def resolve (s : VFS σ) (path : CStr) : Option (Filesystem σ × Nat) :=
  s.filesystems.zipIdx.foldl (fun found fs =>
    if strncmp (cstr fs.1.mountpoint) path fs.1.mountpoint.length = 0 then some fs else found) none

def openFile (s : VFS σ) (path : CStr) : BitVec 32 × VFS σ :=
  match s.resolve path with
  | none => (-1, s)
  | some (fs, i) =>
    let (fd, world) := fs.openFile s.world (path.skip fs.mountpoint.length)
    (fd, { s with world, openFilesystems := s.openFilesystems.put fd i })

def filesystem (s : VFS σ) (fd : BitVec 32) : Option (Filesystem σ) := do
  let i ← s.openFilesystems.get fd
  s.filesystems[i]?

def read (s : VFS σ) (fd : BitVec 32) (count : BitVec 64) : (BitVec 64 × Option Copy) × VFS σ :=
  match s.filesystem fd with
  | none => ((-1, none), s)
  | some fs =>
    let (r, world) := fs.read s.world fd count
    (r, { s with world })

def close (s : VFS σ) (fd : BitVec 32) : BitVec 32 × VFS σ :=
  match s.filesystem fd with
  | none => (-1, s)
  | some fs =>
    let (r, world) := fs.close s.world fd
    (r, { s with world })

def lseek (s : VFS σ) (fd : BitVec 32) (offset : BitVec 64) (whence : BitVec 32) : BitVec 64 × VFS σ :=
  match s.filesystem fd with
  | none => (-1, s)
  | some fs =>
    let (r, world) := fs.lseek s.world fd offset whence
    (r, { s with world })

def tell (s : VFS σ) (fd : BitVec 32) : BitVec 64 × VFS σ :=
  match s.filesystem fd with
  | none => (-1, s)
  | some fs =>
    let (r, world) := fs.tell s.world fd
    (r, { s with world })

end VFS

-- ---------------------------------------------------------------------------
-- Calls
-- ---------------------------------------------------------------------------

inductive VfsCall
  | openFile (path : CStr)
  | read (fd : BitVec 32) (count : BitVec 64)
  | lseek (fd : BitVec 32) (offset : BitVec 64) (whence : BitVec 32)
  | tell (fd : BitVec 32)
  | close (fd : BitVec 32)

inductive Result
  | int (r : BitVec 32)
  | offset (r : BitVec 64)
  | read (r : BitVec 64) (copied : Option Copy)
  deriving DecidableEq, Repr

def Initrd.call (s : Initrd) : VfsCall → Result × Initrd
  | .openFile path => (.int (s.openFile path).1, (s.openFile path).2)
  | .read fd count => (.read (s.read fd count).1.1 (s.read fd count).1.2, (s.read fd count).2)
  | .lseek fd offset whence => (.offset (s.lseek fd offset whence).1, (s.lseek fd offset whence).2)
  | .tell fd => (.offset (s.tell fd), s)
  | .close fd => (.int (s.close fd).1, (s.close fd).2)

def VFS.call {σ : Type} (s : VFS σ) : VfsCall → Result × VFS σ
  | .openFile path => (.int (s.openFile path).1, (s.openFile path).2)
  | .read fd count => (.read (s.read fd count).1.1 (s.read fd count).1.2, (s.read fd count).2)
  | .lseek fd offset whence => (.offset (s.lseek fd offset whence).1, (s.lseek fd offset whence).2)
  | .tell fd => (.offset (s.tell fd).1, (s.tell fd).2)
  | .close fd => (.int (s.close fd).1, (s.close fd).2)

/-- Calls always return, so a call is a step to one state. -/
def VFS.step {σ : Type} (s : VFS σ) (c : VfsCall) : Option (VFS σ) := some (s.call c).2

/-- The initrd as the only mount, with nothing opened through the VFS yet. -/
def VFS.mounted (mountpoint : List Byte) (s : Initrd) : VFS Initrd :=
  VFS.mount { world := s } (initrdFilesystem mountpoint)

def VFS.mountedAt (mountpoints : List (List Byte)) (s : Initrd) : VFS Initrd :=
  { filesystems := mountpoints.map initrdFilesystem, world := s }

-- ---------------------------------------------------------------------------
-- What reaches the initrd
-- ---------------------------------------------------------------------------

namespace Initrd

@[simp] theorem call_names (s : Initrd) (c : VfsCall) : (s.call c).2.names = s.names := by
  cases c with
  | openFile path => exact openFile_names
  | read fd count =>
    rcases s.read_state fd count with h | ⟨i, pos, h⟩
    · rw [call, h]
    · rw [call, h, setPos_names]
  | lseek fd offset whence =>
    rcases s.lseek_state fd offset whence with h | ⟨i, pos, h⟩
    · rw [call, h]
    · rw [call, h, setPos_names]
  | tell fd => rfl
  | close fd => exact close_names

end Initrd

namespace VFS

variable {σ : Type} {mp : List Byte}

abbrev MatchesPath (path : CStr) (fs : Filesystem σ) : Prop :=
  strncmp (cstr fs.mountpoint) path fs.mountpoint.length = 0

theorem resolve_eq (st : VFS σ) (path : CStr) :
    st.resolve path = st.filesystems.zipIdx.reverse.find? fun fs => MatchesPath path fs.1 := by
  have hscan : ∀ (l : List (Filesystem σ × Nat)) (found : Option (Filesystem σ × Nat)),
      l.foldl (fun found fs => if MatchesPath path fs.1 then some fs else found) found =
        (l.reverse.find? fun fs => MatchesPath path fs.1).or found := by
    intro l
    induction l with
    | nil => exact fun found => rfl
    | cons fs l ih =>
      intro found
      rw [List.foldl_cons, ih, List.reverse_cons, List.find?_append, Option.or_assoc,
        List.find?_singleton]
      by_cases hfs : MatchesPath path fs.1
      · rw [if_pos hfs, if_pos (by simpa using hfs)]
        rfl
      · rw [if_neg hfs, if_neg (by simpa using hfs)]
        rfl
  exact (hscan _ none).trans (Option.or_none)

theorem resolve_some {st : VFS σ} {path : CStr} {fs : Filesystem σ} {i : Nat}
    (h : st.resolve path = some (fs, i)) :
    st.filesystems[i]? = some fs := by
  rw [resolve_eq] at h
  have hmem := List.mem_reverse.mp (List.mem_of_find?_eq_some h)
  exact (List.mk_mem_zipIdx_iff_getElem?.mp hmem)

def forward (st : VFS σ) : VfsCall → Option VfsCall
  | .openFile path => (st.resolve path).map fun fs => .openFile (path.skip fs.1.mountpoint.length)
  | .read fd count => (st.filesystem fd).map fun _ => .read fd count
  | .lseek fd offset whence => (st.filesystem fd).map fun _ => .lseek fd offset whence
  | .tell fd => (st.filesystem fd).map fun _ => .tell fd
  | .close fd => (st.filesystem fd).map fun _ => .close fd

def Mounted (mp : List Byte) (st : VFS Initrd) : Prop := st.filesystems = [initrdFilesystem mp]

theorem mounted_mounted (s : Initrd) : (VFS.mounted mp s).Mounted mp := rfl

section
variable {s : Initrd} {st u : VFS Initrd} {path : CStr} {fd : BitVec 32} {fs : Filesystem Initrd}
  {i : Nat}
  {c : VfsCall} {cs : List VfsCall}

theorem Mounted.resolve (h : st.Mounted mp) (hr : st.resolve path = some (fs, i)) :
    fs = initrdFilesystem mp := by
  rw [VFS.resolve, h, List.zipIdx_singleton, List.foldl_cons, List.foldl_nil] at hr
  split_ifs at hr
  exact (congrArg Prod.fst (Option.some.inj hr)).symm

theorem Mounted.filesystem (h : st.Mounted mp) (hf : st.filesystem fd = some fs) :
    fs = initrdFilesystem mp := by
  obtain ⟨i, _, hi⟩ := Option.bind_eq_some_iff.mp hf
  rw [h, List.getElem?_singleton] at hi
  split_ifs at hi
  exact (Option.some.inj hi).symm

theorem call_filesystems {st : VFS σ} : (st.call c).2.filesystems = st.filesystems := by
  cases c with
  | openFile path =>
    rw [call, VFS.openFile]
    split <;> rfl
  | read fd count =>
    rw [call, VFS.read]
    split <;> rfl
  | lseek fd offset whence =>
    rw [call, VFS.lseek]
    split <;> rfl
  | tell fd =>
    rw [call, VFS.tell]
    split <;> rfl
  | close fd =>
    rw [call, VFS.close]
    split <;> rfl

theorem Mounted.call (h : st.Mounted mp) : (st.call c).2.Mounted mp := call_filesystems.trans h

theorem Mounted.call_of_forward {c' : VfsCall} (h : st.Mounted mp) (hc : st.forward c = some c') :
    (st.call c).1 = (st.world.call c').1 ∧ (st.call c).2.world = (st.world.call c').2 := by
  cases c with
  | openFile path =>
    obtain ⟨⟨fs, i⟩, hr, rfl⟩ := Option.map_eq_some_iff.mp hc
    obtain rfl := h.resolve hr
    simp only [VFS.call, VFS.openFile, hr]
    exact ⟨rfl, rfl⟩
  | read fd count =>
    obtain ⟨fs, hf, rfl⟩ := Option.map_eq_some_iff.mp hc
    obtain rfl := h.filesystem hf
    simp only [VFS.call, VFS.read, hf]
    exact ⟨rfl, rfl⟩
  | lseek fd offset whence =>
    obtain ⟨fs, hf, rfl⟩ := Option.map_eq_some_iff.mp hc
    obtain rfl := h.filesystem hf
    simp only [VFS.call, VFS.lseek, hf]
    exact ⟨rfl, rfl⟩
  | tell fd =>
    obtain ⟨fs, hf, rfl⟩ := Option.map_eq_some_iff.mp hc
    obtain rfl := h.filesystem hf
    simp only [VFS.call, VFS.tell, hf]
    exact ⟨rfl, rfl⟩
  | close fd =>
    obtain ⟨fs, hf, rfl⟩ := Option.map_eq_some_iff.mp hc
    obtain rfl := h.filesystem hf
    simp only [VFS.call, VFS.close, hf]
    exact ⟨rfl, rfl⟩

theorem call_of_not_forward {st : VFS σ} (hc : st.forward c = none) : (st.call c).2 = st := by
  cases c with
  | openFile path => simp only [VFS.call, VFS.openFile, Option.map_eq_none_iff.mp hc]
  | read fd count => simp only [VFS.call, VFS.read, Option.map_eq_none_iff.mp hc]
  | lseek fd offset whence => simp only [VFS.call, VFS.lseek, Option.map_eq_none_iff.mp hc]
  | tell fd => simp only [VFS.call, VFS.tell, Option.map_eq_none_iff.mp hc]
  | close fd => simp only [VFS.call, VFS.close, Option.map_eq_none_iff.mp hc]

theorem Mounted.call_names (h : st.Mounted mp) : (st.call c).2.world.names = st.world.names := by
  cases hc : st.forward c with
  | none => rw [call_of_not_forward hc]
  | some c' => rw [(h.call_of_forward hc).2, Initrd.call_names]

theorem Mounted.step (h : st.Mounted mp) (hs : Steps VFS.step st c u) :
    u.Mounted mp ∧ u.world.names = st.world.names := by
  obtain rfl := Option.some.inj hs
  exact ⟨h.call, h.call_names⟩

theorem run_mounted (h : Run (Steps VFS.step) (VFS.mounted mp s) cs st) :
    st.Mounted mp ∧ st.world.names = s.names := by
  refine h.invariant (I := fun st => st.Mounted mp ∧ st.world.names = s.names)
    ⟨mounted_mounted s, rfl⟩ ?_
  rintro t e u ⟨hm, hnames⟩ hs
  exact ⟨(hm.step hs).1, (hm.step hs).2.trans hnames⟩

end

/-- Two files, `a` and `b`, mounted on `/`: the concrete state of the examples
about runs of calls. -/
def twoFiles : VFS Initrd :=
  VFS.mounted [0x2f]
    { mem := fun _ => 0
      files :=
        [{ data := 4096, size := 8, name := cstr [0x61] },
          { data := 4104, size := 8, name := cstr [0x62] }] }

def pathA : CStr := cstr [0x2f, 0x61]
def pathB : CStr := cstr [0x2f, 0x62]

end VFS

end LimineOS
