import LimineOS.Fs.Vfs

/-!
# What a failed operation changes

The operations of the VFS and the initrd report an error with -1. Reading,
seeking and telling the position check first and write afterwards. `VFS::open`
files the -1 of a failed open as a descriptor, and `Initrd::close` moves its
counter before it looks.
-/

namespace LimineOS

open ByteMemory Transition

def VfsCall.error : VfsCall → Result
  | .openFile _ => .int (-1)
  | .read _ _ => .read (-1) none
  | .lseek _ _ _ => .offset (-1)
  | .tell _ => .offset (-1)
  | .close _ => .int (-1)

/-- The call ends at a check of the initrd: no such file, a descriptor that is
not open, or a read past the end. -/
def Initrd.Fails (s : Initrd) : VfsCall → Prop
  | .openFile path => s.lookup path = none
  | .read fd count => ∀ i info, s.info fd = some (i, info) →
      count + info.curPos > info.size.setWidth 64 ∨ info.data = 0
  | .lseek fd _ _ => s.info fd = none
  | .tell fd => s.info fd = none
  | .close fd => s.openFiles.get fd = none

namespace VFS

def Fails (st : VFS Initrd) (c : VfsCall) : Prop := ∀ c', st.forward c = some c' → st.world.Fails c'

/-- A failing open changes nothing where no filesystem takes the path, or -1 is
filed already, for the filesystem that does; a failing close, where the VFS does
not know the descriptor. -/
def Harmless (st : VFS Initrd) : VfsCall → Prop
  | .openFile path => ∀ fs i, st.resolve path = some (fs, i) → st.openFilesystems.get (-1) = some i
  | .close fd => st.filesystem fd = none
  | _ => True

section
variable {mountpoints : List (List Byte)} {s : Initrd} {st : VFS Initrd} {fs : Filesystem Initrd}
  {path : CStr}
  {fd : BitVec 32} {c : VfsCall} {cs : List VfsCall}

def InitrdsOnly (st : VFS Initrd) : Prop := ∀ fs ∈ st.filesystems, ∃ mp, fs = initrdFilesystem mp

theorem InitrdsOnly.filesystem (h : st.InitrdsOnly) (hf : st.filesystem fd = some fs) :
    ∃ mp, fs = initrdFilesystem mp := by
  obtain ⟨i, -, hi⟩ := Option.bind_eq_some_iff.mp hf
  exact h fs (List.mem_of_getElem? hi)

theorem InitrdsOnly.resolve {i : Nat} (h : st.InitrdsOnly) (hr : st.resolve path = some (fs, i)) :
    ∃ mp, fs = initrdFilesystem mp := h fs (List.mem_of_getElem? (resolve_some hr))

theorem run_initrdsOnly (h : Run (Steps VFS.step) (mountedAt mountpoints s) cs st) :
    st.InitrdsOnly := by
  refine h.invariant (I := InitrdsOnly) ?_ ?_
  · intro fs hfs
    obtain ⟨mp, -, rfl⟩ := List.mem_map.mp hfs
    exact ⟨mp, rfl⟩
  · rintro t c u ht hstep fs hfs
    obtain rfl := Option.some.inj hstep
    rw [call_filesystems] at hfs
    exact ht fs hfs

-- ---------------------------------------------------------------------------
-- Each operation
-- ---------------------------------------------------------------------------

theorem InitrdsOnly.openFile_fails (h : st.InitrdsOnly) (hfail : st.Fails (.openFile path)) :
    (st.openFile path).1 = -1 ∧ ((st.openFile path).2 = st ↔ st.Harmless (.openFile path)) := by
  cases hr : st.resolve path with
  | none =>
    simp only [VFS.openFile, hr, Harmless]
    exact ⟨trivial, iff_of_true trivial fun fs i hsome => by simp at hsome⟩
  | some found =>
    obtain ⟨fs, i⟩ := found
    obtain ⟨mp, rfl⟩ := h.resolve hr
    have hlookup : st.world.lookup (path.skip mp.length) = none :=
      hfail (.openFile (path.skip mp.length)) (by rw [forward, hr]; rfl)
    have hopen : (initrdFilesystem mp).openFile st.world (path.skip mp.length) = (-1, st.world) :=
      Initrd.openFile_of_none hlookup
    have hmp : (initrdFilesystem mp).mountpoint = mp := rfl
    simp only [VFS.openFile, hr, Harmless, hmp, hopen]
    refine ⟨trivial, ?_⟩
    constructor
    · intro heq fs' i' hsome
      obtain ⟨rfl, rfl⟩ := Prod.mk.inj (Option.some.inj hsome)
      exact (UnorderedMap.put_eq_self_iff _ _ _).mp (congrArg VFS.openFilesystems heq)
    · intro hget
      rw [(UnorderedMap.put_eq_self_iff _ _ _).mpr (hget _ _ rfl)]

theorem InitrdsOnly.read_fails {count : BitVec 64} (h : st.InitrdsOnly)
    (hfail : st.Fails (.read fd count)) :
    st.read fd count = ((-1, none), st) := by
  cases hf : st.filesystem fd with
  | none => simp only [VFS.read, hf]
  | some fs =>
    obtain ⟨mp, rfl⟩ := h.filesystem hf
    have hchecks := hfail (.read fd count) (by rw [forward, hf]; rfl)
    have hread : (initrdFilesystem mp).read st.world fd count = ((-1, none), st.world) := by
      show st.world.read fd count = _
      unfold Initrd.read
      split
      · rfl
      · rename_i i info hinfo
        rcases hchecks i info hinfo with hend | hdata
        · rw [if_pos hend]
        · rw [if_pos hdata, ite_self]
    simp only [VFS.read, hf, hread]

theorem InitrdsOnly.lseek_fails {offset : BitVec 64} {whence : BitVec 32} (h : st.InitrdsOnly)
    (hfail : st.Fails (.lseek fd offset whence)) : st.lseek fd offset whence = (-1, st) := by
  cases hf : st.filesystem fd with
  | none => simp only [VFS.lseek, hf]
  | some fs =>
    obtain ⟨mp, rfl⟩ := h.filesystem hf
    have hinfo : st.world.info fd = none := hfail (.lseek fd offset whence) (by rw [forward, hf]; rfl)
    have hseek : (initrdFilesystem mp).lseek st.world fd offset whence = (-1, st.world) := by
      show st.world.lseek fd offset whence = _
      rw [Initrd.lseek, hinfo]
    simp only [VFS.lseek, hf, hseek]

theorem InitrdsOnly.tell_fails (h : st.InitrdsOnly) (hfail : st.Fails (.tell fd)) :
    st.tell fd = (-1, st) := by
  cases hf : st.filesystem fd with
  | none => simp only [VFS.tell, hf]
  | some fs =>
    obtain ⟨mp, rfl⟩ := h.filesystem hf
    have hinfo : st.world.info fd = none := hfail (.tell fd) (by rw [forward, hf]; rfl)
    have htell : (initrdFilesystem mp).tell st.world fd = (-1, st.world) := by
      show (st.world.tell fd, st.world) = _
      rw [Initrd.tell, hinfo]
    simp only [VFS.tell, hf, htell]

theorem InitrdsOnly.close_fails (h : st.InitrdsOnly) (hfail : st.Fails (.close fd)) :
    (st.close fd).1 = -1 ∧ ((st.close fd).2 = st ↔ st.Harmless (.close fd)) := by
  cases hf : st.filesystem fd with
  | none =>
    simp only [VFS.close, hf, Harmless]
    exact ⟨trivial, trivial⟩
  | some fs =>
    obtain ⟨mp, rfl⟩ := h.filesystem hf
    have hget : st.world.openFiles.get fd = none := hfail (.close fd) (by rw [forward, hf]; rfl)
    have hclose : (initrdFilesystem mp).close st.world fd =
        (-1, { st.world with curFd := st.world.curFd - 1 }) := by
      show st.world.close fd = _
      simp only [Initrd.close, hget]
    simp only [VFS.close, hf, Harmless, hclose]
    refine ⟨trivial, iff_of_false (fun heq => ?_) (by simp)⟩
    -- the counter has moved
    have hcurFd : st.world.curFd - 1 = st.world.curFd := congrArg (fun st => st.world.curFd) heq
    have hmoved : st.world.curFd - 1 ≠ st.world.curFd := by bv_omega
    exact hmoved hcurFd

theorem InitrdsOnly.call_fails (h : st.InitrdsOnly) (hfail : st.Fails c) :
    (st.call c).1 = c.error ∧ ((st.call c).2 = st ↔ st.Harmless c) := by
  cases c with
  | openFile path =>
    obtain ⟨hfd, hstate⟩ := h.openFile_fails hfail
    exact ⟨congrArg Result.int hfd, hstate⟩
  | read fd count =>
    rw [call, h.read_fails hfail]
    exact ⟨rfl, iff_of_true rfl trivial⟩
  | lseek fd offset whence =>
    rw [call, h.lseek_fails hfail]
    exact ⟨rfl, iff_of_true rfl trivial⟩
  | tell fd =>
    rw [call, h.tell_fails hfail]
    exact ⟨rfl, iff_of_true rfl trivial⟩
  | close fd =>
    obtain ⟨hr, hstate⟩ := h.close_fails hfail
    exact ⟨congrArg Result.int hr, hstate⟩

/-- In every reachable state, a failing call returns -1, and changes nothing
exactly where it is harmless. -/
theorem run_fails_iff (h : Run (Steps VFS.step) (mountedAt mountpoints s) cs st) (hfail : st.Fails c) :
    (st.call c).1 = c.error ∧ ((st.call c).2 = st ↔ st.Harmless c) :=
  (run_initrdsOnly h).call_fails hfail

end

def pathZ : CStr := cstr [0x2f, 0x7a]

theorem twoFiles_fails : twoFiles.Fails (.openFile pathZ) := by
  intro c' hc'
  obtain rfl := Option.some.inj ((show twoFiles.forward (.openFile pathZ) = _ from rfl).symm.trans hc')
  rfl

theorem run_fails_iff_twoFiles :
    ∃ st, Run (Steps VFS.step) twoFiles [.openFile pathA] st ∧ st.Fails (.read 1 4) ∧
      (st.call (.read 1 4)).2 = st := by
  have hrun : Run (Steps VFS.step) (mountedAt [[0x2f]] twoFiles.world) [.openFile pathA]
      (twoFiles.call (.openFile pathA)).2 := .single rfl
  have hfail : (twoFiles.call (.openFile pathA)).2.Fails (.read 1 4) := by
    intro c' hc'
    have hnone : (twoFiles.call (.openFile pathA)).2.forward (.read 1 4) = none := rfl
    rw [hnone] at hc'
    exact absurd hc' (by simp)
  exact ⟨_, hrun, hfail, (run_fails_iff hrun hfail).2.mpr trivial⟩

/-- The failed open is filed as descriptor -1, and the second close of a
descriptor moves the counter below zero. -/
theorem twoFiles_not_unchanged :
    (twoFiles.Fails (.openFile pathZ) ∧ (twoFiles.call (.openFile pathZ)).1 = .int (-1) ∧
      (twoFiles.call (.openFile pathZ)).2.openFilesystems.get (-1) = some 0 ∧
      (twoFiles.call (.openFile pathZ)).2 ≠ twoFiles) ∧
    ∃ st, Run (Steps VFS.step) twoFiles [.openFile pathA, .close 0] st ∧ st.Fails (.close 0) ∧
      (st.call (.close 0)).1 = .int (-1) ∧ st.world.curFd = 0 ∧
      (st.call (.close 0)).2.world.curFd = -1 ∧ (st.call (.close 0)).2 ≠ st := by
  refine ⟨⟨twoFiles_fails, rfl, rfl, fun heq => ?_⟩, ?_⟩
  · have hget := congrArg (fun st : VFS Initrd => st.openFilesystems.get (-1)) heq
    have hsome : (twoFiles.call (.openFile pathZ)).2.openFilesystems.get (-1) = some 0 := rfl
    have hnone : twoFiles.openFilesystems.get (-1) = none := rfl
    exact absurd (hsome.symm.trans (hget.trans hnone)) (by simp)
  · obtain ⟨st, hst⟩ :
      ∃ st, [VfsCall.openFile pathA, .close 0].foldlM VFS.step twoFiles = some st := ⟨_, rfl⟩
    have hcurFd : st.world.curFd = 0 := by
      obtain rfl := Option.some.inj hst
      rfl
    have hcurFd' : (st.call (.close 0)).2.world.curFd = -1 := by
      obtain rfl := Option.some.inj hst
      rfl
    refine ⟨st, run_steps_iff.mpr hst, fun c' hc' => ?_, ?_, hcurFd, hcurFd', fun heq => ?_⟩
    · obtain rfl := Option.some.inj hst
      obtain rfl := Option.some.inj hc'
      rfl
    · obtain rfl := Option.some.inj hst
      rfl
    · rw [heq, hcurFd] at hcurFd'
      exact absurd hcurFd' (by decide)

end VFS

end LimineOS
