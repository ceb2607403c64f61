import LimineOS.Fs.Failures
import Mathlib.Logic.Function.Basic

/-!
# Descriptors of several filesystems

`VFS` has one table for the descriptors of all filesystems, in which the last
filesystem that returned a descriptor stays until another one returns it.
`Tracked` keeps beside it who holds a descriptor: the filesystems that returned
it since it was closed. Nothing is asked of the filesystems.
-/

namespace LimineOS

open ByteMemory Transition

variable {σ : Type}

def VfsCall.fd : VfsCall → Option (BitVec 32)
  | .openFile _ => none
  | .read fd _ => some fd
  | .lseek fd _ _ => some fd
  | .tell fd => some fd
  | .close fd => some fd

def Filesystem.call (fs : Filesystem σ) (world : σ) : VfsCall → Result × σ
  | .openFile path => (.int (fs.openFile world path).1, (fs.openFile world path).2)
  | .read fd count =>
    (.read (fs.read world fd count).1.1 (fs.read world fd count).1.2, (fs.read world fd count).2)
  | .lseek fd offset whence =>
    (.offset (fs.lseek world fd offset whence).1, (fs.lseek world fd offset whence).2)
  | .tell fd => (.offset (fs.tell world fd).1, (fs.tell world fd).2)
  | .close fd => (.int (fs.close world fd).1, (fs.close world fd).2)

namespace VFS

def Dispatched (st : VFS σ) (c : VfsCall) (fd : BitVec 32) (i : Nat) : Prop :=
  st.openFilesystems.get fd = some i ∧ ∃ fs, st.filesystems[i]? = some fs ∧
    st.call c = ((fs.call st.world c).1, { st with world := (fs.call st.world c).2 })

def Rejected (st : VFS σ) (c : VfsCall) : Prop := st.forward c = none ∧ st.call c = (c.error, st)

section
variable {st : VFS σ} {c : VfsCall} {fd : BitVec 32} {fs : Filesystem σ} {i : Nat}

theorem filesystem_of_get (hget : st.openFilesystems.get fd = some i) :
    st.filesystem fd = st.filesystems[i]? := by
  rw [filesystem, hget]
  rfl

theorem dispatched (hc : c.fd = some fd) (hget : st.openFilesystems.get fd = some i)
    (hfs : st.filesystems[i]? = some fs) :
    st.Dispatched c fd i := by
  have hf : st.filesystem fd = some fs := (filesystem_of_get hget).trans hfs
  refine ⟨hget, fs, hfs, ?_⟩
  cases c with
  | openFile path => cases hc
  | read fd count =>
    cases hc
    simp only [call, VFS.read, hf, Filesystem.call]
  | lseek fd offset whence =>
    cases hc
    simp only [call, VFS.lseek, hf, Filesystem.call]
  | tell fd =>
    cases hc
    simp only [call, VFS.tell, hf, Filesystem.call]
  | close fd =>
    cases hc
    simp only [call, VFS.close, hf, Filesystem.call]

theorem not_rejected (hc : c.fd = some fd) (hf : st.filesystem fd = some fs) : ¬st.Rejected c := by
  rintro ⟨hnone, -⟩
  cases c with
  | openFile path => cases hc
  | read fd count =>
    cases hc
    simp [forward, hf] at hnone
  | lseek fd offset whence =>
    cases hc
    simp [forward, hf] at hnone
  | tell fd =>
    cases hc
    simp [forward, hf] at hnone
  | close fd =>
    cases hc
    simp [forward, hf] at hnone

theorem call_openFilesystems (hc : c.fd = some fd) :
    (st.call c).2.openFilesystems = st.openFilesystems := by
  cases c with
  | openFile path => cases hc
  | read fd count =>
    rw [call, VFS.read]
    split <;> rfl
  | lseek fd offset whence =>
    rw [call, VFS.lseek]
    split <;> rfl
  | tell fd =>
    rw [call, VFS.tell]
    split <;> rfl
  | close fd =>
    rw [call, VFS.close]
    split <;> rfl

end

end VFS

/-- The VFS, and for each descriptor that was ever open the filesystems that
returned it since the last close, newest first; none when it is closed. -/
structure Tracked (σ : Type) where
  vfs : VFS σ
  holders : BitVec 32 → Option (List Nat) := fun _ => none

namespace Tracked

def start (filesystems : List (Filesystem σ)) (world : σ) : Tracked σ :=
  { vfs := { filesystems, world } }

def hold (holders : BitVec 32 → Option (List Nat)) (fd : BitVec 32) (i : Nat) :
    BitVec 32 → Option (List Nat) :=
  Function.update holders fd (some (i :: (holders fd).getD []))

def release (holders : BitVec 32 → Option (List Nat)) (fd : BitVec 32) :
    BitVec 32 → Option (List Nat) :=
  Function.update holders fd (some [])

/-- Who holds what after a call. An `open` or a `close` that returns -1 has
opened or closed nothing. -/
def note (t : Tracked σ) : VfsCall → BitVec 32 → Option (List Nat)
  | .openFile path =>
    match t.vfs.resolve path with
    | none => t.holders
    | some (_, i) =>
      if (t.vfs.openFile path).1 = -1 then t.holders else hold t.holders (t.vfs.openFile path).1 i
  | .close fd => if (t.vfs.close fd).1 = -1 then t.holders else release t.holders fd
  | _ => t.holders

def step (t : Tracked σ) (c : VfsCall) : Option (Tracked σ) := some ⟨(t.vfs.call c).2, t.note c⟩

/-- A call on an open descriptor goes to each filesystem that returned it, and
one on a closed descriptor to none. -/
structure Right (t : Tracked σ) (c : VfsCall) : Prop where
  held : ∀ fd l, c.fd = some fd → t.holders fd = some l → ∀ i ∈ l, t.vfs.Dispatched c fd i
  closed : ∀ fd, c.fd = some fd → t.holders fd = some [] → t.vfs.Rejected c

/-- A call on a descriptor that was ever open names one that is still open, and
that one filesystem holds. -/
def Single (t : Tracked σ) (c : VfsCall) : Prop :=
  ∀ fd l, c.fd = some fd → t.holders fd = some l → ∃ i ∈ l, ∀ j ∈ l, j = i

structure Filed (t : Tracked σ) : Prop where
  mounted : ∀ fd i, t.vfs.openFilesystems.get fd = some i → i < t.vfs.filesystems.length
  held : ∀ fd l, t.holders fd = some l → ∃ i, t.vfs.openFilesystems.get fd = some i ∧ (l ≠ [] → i ∈ l)
  error : ∀ l, t.holders (-1) = some l → l = []

section
variable {filesystems : List (Filesystem σ)} {world : σ} {t u : Tracked σ} {c : VfsCall}
  {cs : List VfsCall}
  {holders : BitVec 32 → Option (List Nat)} {path : CStr} {fd d : BitVec 32} {i : Nat}

theorem hold_self : hold holders fd i fd = some (i :: (holders fd).getD []) := Function.update_self ..

theorem hold_of_ne (hd : d ≠ fd) : hold holders fd i d = holders d := Function.update_of_ne hd ..

theorem release_self : release holders fd fd = some [] := Function.update_self ..

theorem release_of_ne (hd : d ≠ fd) : release holders fd d = holders d := Function.update_of_ne hd ..

theorem start_filed : (start filesystems world).Filed := by
  refine ⟨fun fd i hget => ?_, fun fd l hl => ?_, fun l hl => ?_⟩
  · rw [start, UnorderedMap.get_empty] at hget
    cases hget
  · cases hl
  · cases hl

theorem Filed.openFile (h : t.Filed) :
    Filed ⟨(t.vfs.call (.openFile path)).2, t.note (.openFile path)⟩ := by
  cases hr : t.vfs.resolve path with
  | none =>
    simp only [VFS.call, VFS.openFile, note, hr]
    exact ⟨h.mounted, h.held, h.error⟩
  | some found =>
    obtain ⟨fs, i⟩ := found
    have hi := (List.getElem?_eq_some_iff.mp (VFS.resolve_some hr)).1
    have htable : ∀ d, (t.vfs.call (.openFile path)).2.openFilesystems.get d =
        if d = (t.vfs.openFile path).1 then some i else t.vfs.openFilesystems.get d := by
      intro d
      simp only [VFS.call, VFS.openFile, hr, UnorderedMap.get_put]
    have hnote : t.note (.openFile path) =
        if (t.vfs.openFile path).1 = -1 then t.holders
          else hold t.holders (t.vfs.openFile path).1 i := by
      simp only [note, hr]
    generalize (t.vfs.openFile path).1 = fd at htable hnote
    refine ⟨fun d j hj => ?_, fun d l hl => ?_, fun l hl => ?_⟩
    · rw [htable] at hj
      rw [VFS.call_filesystems]
      split_ifs at hj with hd
      · cases hj
        exact hi
      · exact h.mounted d j hj
    · rw [htable]
      rw [hnote] at hl
      by_cases hd : d = fd
      · subst hd
        refine ⟨i, if_pos rfl, fun hne => ?_⟩
        split_ifs at hl with herr
        · rw [herr] at hl
          exact absurd (h.error l hl) hne
        · obtain rfl := Option.some.inj (hold_self.symm.trans hl)
          exact List.mem_cons_self
      · rw [if_neg hd]
        split_ifs at hl with herr
        · exact h.held d l hl
        · exact h.held d l ((hold_of_ne hd).symm.trans hl)
    · rw [hnote] at hl
      split_ifs at hl with herr
      · exact h.error l hl
      · exact h.error l ((hold_of_ne (Ne.symm herr)).symm.trans hl)

theorem Filed.of_table (h : t.Filed) (hc : c.fd = some fd) (hnote : t.note c = t.holders) :
    Filed ⟨(t.vfs.call c).2, t.note c⟩ := by
  refine ⟨fun d i hget => ?_, fun d l hl => ?_, fun l hl => ?_⟩
  · rw [VFS.call_openFilesystems hc] at hget
    rw [VFS.call_filesystems]
    exact h.mounted d i hget
  · rw [VFS.call_openFilesystems hc]
    exact h.held d l (hnote ▸ hl)
  · exact h.error l (hnote ▸ hl)

theorem Filed.close (h : t.Filed) : Filed ⟨(t.vfs.call (.close fd)).2, t.note (.close fd)⟩ := by
  by_cases herr : (t.vfs.close fd).1 = -1
  · exact h.of_table rfl (if_pos herr)
  · have hnote : t.note (.close fd) = release t.holders fd := if_neg herr
    have hget : ∃ i, t.vfs.openFilesystems.get fd = some i := by
      rw [← Option.ne_none_iff_exists']
      intro hnone
      have hf : t.vfs.filesystem fd = none := by
        rw [VFS.filesystem, hnone]
        rfl
      exact herr (by simp only [VFS.close, hf])
    refine ⟨fun d i hd => ?_, fun d l hl => ?_, fun l hl => ?_⟩
    · rw [VFS.call_openFilesystems rfl] at hd
      rw [VFS.call_filesystems]
      exact h.mounted d i hd
    · rw [VFS.call_openFilesystems rfl]
      rw [hnote] at hl
      by_cases hd : d = fd
      · subst hd
        obtain ⟨i, hi⟩ := hget
        obtain rfl := Option.some.inj (release_self.symm.trans hl)
        exact ⟨i, hi, fun hne => absurd rfl hne⟩
      · exact h.held d l ((release_of_ne hd).symm.trans hl)
    · rw [hnote] at hl
      by_cases hd : -1 = fd
      · subst hd
        have hself : release t.holders (-1) (-1) = some l := hl
        exact (Option.some.inj (release_self.symm.trans hself)).symm
      · exact h.error l ((release_of_ne hd).symm.trans hl)

theorem Filed.step (h : t.Filed) (hs : Steps Tracked.step t c u) : u.Filed := by
  obtain rfl := Option.some.inj hs
  cases c with
  | openFile path => exact h.openFile
  | read fd count => exact h.of_table rfl rfl
  | lseek fd offset whence => exact h.of_table rfl rfl
  | tell fd => exact h.of_table rfl rfl
  | close fd => exact h.close

theorem Filed.right_iff (h : t.Filed) : t.Right c ↔ t.Single c := by
  constructor
  · intro hright fd l hc hl
    obtain ⟨i, hget, hheld⟩ := h.held fd l hl
    have hfs := List.getElem?_eq_getElem (h.mounted fd i hget)
    by_cases hne : l = []
    · subst hne
      exact absurd (hright.closed fd hc hl)
        (VFS.not_rejected hc ((VFS.filesystem_of_get hget).trans hfs))
    · refine ⟨i, hheld hne, fun j hj => ?_⟩
      exact Option.some.inj ((hright.held fd l hc hl j hj).1.symm.trans hget)
  · intro hsingle
    refine ⟨fun fd l hc hl j hj => ?_, fun fd hc hl => ?_⟩
    · obtain ⟨i, hget, hheld⟩ := h.held fd l hl
      obtain ⟨k, -, hall⟩ := hsingle fd l hc hl
      obtain rfl : j = i := (hall j hj).trans (hall i (hheld (List.ne_nil_of_mem hj))).symm
      exact VFS.dispatched hc hget (List.getElem?_eq_getElem (h.mounted fd j hget))
    · obtain ⟨k, hk, -⟩ := hsingle fd [] hc hl
      cases hk

/-- In a run, every call goes where it should exactly when every call on a
descriptor that was ever open names one that is still open, and that no other
filesystem has returned as well. -/
theorem run_right_iff : Run (Guarded Right (Steps step)) (start filesystems world) cs t ↔
    Run (Guarded Single (Steps step)) (start filesystems world) cs t :=
  run_guarded_congr start_filed Filed.step fun h _ => h.right_iff

end

end Tracked

/-- What a filesystem promises of its descriptors, in terms of those that are
open within it: `open` returns one that is not, and only that one becomes open. -/
structure Filesystem.FreshFds (fs : Filesystem σ) (isOpen : σ → BitVec 32 → Prop) : Prop where
  fresh : ∀ world path, (fs.openFile world path).1 ≠ -1 → ¬isOpen world (fs.openFile world path).1
  opened : ∀ world path d, isOpen (fs.openFile world path).2 d ↔
    isOpen world d ∨ d = (fs.openFile world path).1 ∧ d ≠ -1
  closed : ∀ world fd, (fs.close world fd).1 ≠ -1 → ¬isOpen (fs.close world fd).2 fd

/-- A filesystem with one file, which can be open once; the state has what is
open for each of two of them. -/
def slotFilesystem (mountpoint : List Byte) (slot : Bool) : Filesystem (Bool → Bool) where
  mountpoint := mountpoint
  openFile world _ := if world slot then (-1, world) else (0, Function.update world slot true)
  read world _ _ := ((0, none), world)
  close world fd := if fd = 0 ∧ world slot then (0, Function.update world slot false) else (-1, world)
  lseek world _ _ _ := (0, world)
  tell world _ := (0, world)

theorem slotFilesystem_freshFds (mountpoint : List Byte) (slot : Bool) :
    (slotFilesystem mountpoint slot).FreshFds fun world fd => fd = 0 ∧ world slot = true := by
  refine ⟨fun world path herr => ?_, fun world path d => ?_, fun world fd herr => ?_⟩
  · cases hslot : world slot with
    | false => simp
    | true => simp [slotFilesystem, hslot] at herr
  · cases hslot : world slot with
    | false =>
      have hne : d = 0 → d ≠ -1 := by
        rintro rfl
        decide
      simpa [slotFilesystem, hslot] using hne
    | true => simp [slotFilesystem, hslot]
  · by_cases hopen : fd = 0 ∧ world slot = true
    · simp [slotFilesystem, hopen]
    · simp only [slotFilesystem, if_neg hopen] at herr
      exact absurd rfl herr

namespace Tracked

def twoSlots : List (Filesystem (Bool → Bool)) :=
  [slotFilesystem [0x2f, 0x61] false, slotFilesystem [0x2f, 0x62] true]

/-- Both filesystems return 0, and then the first one's file is read from the
second; and a descriptor that is closed still reaches its filesystem. -/
theorem twoSlots_not_right :
    (∀ fs ∈ twoSlots, ∃ isOpen, fs.FreshFds isOpen) ∧
      (∃ t, Run (Steps step) (start twoSlots fun _ => false)
        [.openFile VFS.pathA, .openFile VFS.pathB] t ∧
      t.holders 0 = some [1, 0] ∧ ¬t.Right (.read 0 1)) ∧
    ∃ t, Run (Steps step) (start twoSlots fun _ => false) [.openFile VFS.pathA, .close 0] t ∧
      t.holders 0 = some [] ∧ ¬t.Right (.read 0 1) := by
  refine ⟨fun fs hfs => ?_, ?_, ?_⟩
  · obtain rfl | rfl := List.mem_pair.mp hfs
    · exact ⟨_, slotFilesystem_freshFds ..⟩
    · exact ⟨_, slotFilesystem_freshFds ..⟩
  · obtain ⟨t, ht⟩ : ∃ t, [VfsCall.openFile VFS.pathA, .openFile VFS.pathB].foldlM step
      (start twoSlots fun _ => false) = some t := ⟨_, rfl⟩
    have hholders : t.holders 0 = some [1, 0] := by
      obtain rfl := Option.some.inj ht
      rfl
    have hget : t.vfs.openFilesystems.get 0 = some 1 := by
      obtain rfl := Option.some.inj ht
      rfl
    refine ⟨t, run_steps_iff.mpr ht, hholders, fun hright => ?_⟩
    have hfirst := (hright.held 0 _ rfl hholders 0 (by decide)).1
    rw [hget] at hfirst
    exact absurd hfirst (by decide)
  · obtain ⟨t, ht⟩ : ∃ t, [VfsCall.openFile VFS.pathA, .close 0].foldlM step
      (start twoSlots fun _ => false) = some t := ⟨_, rfl⟩
    have hholders : t.holders 0 = some [] := by
      obtain rfl := Option.some.inj ht
      rfl
    have hf : t.vfs.filesystem 0 = some (slotFilesystem [0x2f, 0x61] false) := by
      obtain rfl := Option.some.inj ht
      rfl
    refine ⟨t, run_steps_iff.mpr ht, hholders, fun hright => ?_⟩
    exact VFS.not_rejected rfl hf (hright.closed 0 rfl hholders)

end Tracked

end LimineOS
