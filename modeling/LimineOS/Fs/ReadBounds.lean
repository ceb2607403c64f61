import LimineOS.Fs.Vfs

/-!
# Where reads copy from

`read` compares `count + cur_pos` with the size in unsigned 64-bit arithmetic.
A position and a count whose sum wraps to something within the size pass the
check, and the copy then starts before the file or runs past its end; every
other read that passes stays inside (`run_copiesInside_iff`). No sum wraps in a
run that seeks to non-negative positions only and keeps its counts below `2^63`
(`run_copiesInside_of_modest`).
-/

namespace LimineOS

open ByteMemory Transition

namespace Initrd

variable {s : Initrd} {fd : BitVec 32} {offset count : BitVec 64} {whence : BitVec 32} {i : Nat}
  {info : FileInfo}
  {copied : Copy}

theorem read_copied_iff (h : s.info fd = some (i, info)) :
    (s.read fd count).1.2 = some copied ↔
      ((count + info.curPos).toNat ≤ info.size.toNat ∧ info.data ≠ 0) ∧
        copied = ⟨info.curPos, count, copyBytes s.mem (info.data + info.curPos.toNat) count.toNat⟩ := by
  have hsize : (info.size.setWidth 64).toNat = info.size.toNat := by
    rw [BitVec.toNat_setWidth]
    exact Nat.mod_eq_of_lt (info.size.isLt.trans (by decide))
  have hcheck : (count + info.curPos > info.size.setWidth 64) ↔
      ¬(count + info.curPos).toNat ≤ info.size.toNat := by
    rw [gt_iff_lt, BitVec.lt_def, hsize, Nat.not_le]
  rw [read, h]
  dsimp only
  split_ifs with h1 h2
  · exact iff_of_false (by simp) fun hp => hcheck.mp h1 hp.1.1
  · exact iff_of_false (by simp) fun hp => hp.1.2 h2
  · have h1' := not_not.mp (mt hcheck.mpr h1)
    rw [Option.some.injEq]
    constructor
    · intro heq
      exact ⟨⟨h1', h2⟩, heq.symm⟩
    · intro hp
      exact hp.2.symm

theorem read_state_of_copied (h : s.info fd = some (i, info))
    (hc : (s.read fd count).1.2 = some copied) :
    (s.read fd count).2 = s.setPos i (info.curPos + count) := by
  rw [read, h] at hc ⊢
  dsimp only at hc ⊢
  split_ifs at hc ⊢
  rfl

theorem read_state_of_not_copied (hc : (s.read fd count).1.2 = none) : (s.read fd count).2 = s := by
  unfold read at hc ⊢
  split
  · rfl
  · next h =>
    rw [h] at hc
    dsimp only at hc
    split_ifs at hc ⊢ <;> rfl

/-- A copy that the check let through has its indices in `[0, size)` exactly
when the sum did not wrap. -/
theorem inside_iff {pos : BitVec 64} {size : BitVec 32} (hpass : (count + pos).toNat ≤ size.toNat) :
    (0 ≤ pos.toInt ∧ pos.toInt + count.toNat ≤ size.toNat) ↔ count.toNat + pos.toNat < 2 ^ 64 := by
  have hsize := size.isLt
  have hpos := pos.isLt
  have hcount := count.isLt
  rw [BitVec.toNat_add] at hpass
  rw [BitVec.toInt_eq_toNat_cond]
  split <;> omega

theorem pass_iff {pos : BitVec 64} {size : BitVec 32} :
    (count + pos).toNat ≤ size.toNat ↔
      count.toNat + pos.toNat ≤ size.toNat ∨
        2 ^ 64 ≤ count.toNat + pos.toNat ∧ count.toNat + pos.toNat ≤ size.toNat + 2 ^ 64 := by
  have hsize := size.isLt
  have hpos := pos.isLt
  have hcount := count.isLt
  rw [BitVec.toNat_add]
  omega

def PosNonneg (s : Initrd) : Prop :=
  ∀ (i : Nat) (info : FileInfo), s.files[i]? = some info → 0 ≤ info.curPos.toInt

theorem PosNonneg.setPos {pos : BitVec 64} (h : s.PosNonneg) (hpos : 0 ≤ pos.toInt) :
    (s.setPos i pos).PosNonneg := by
  intro j f hf
  rw [setPos_files] at hf
  obtain ⟨f', hf', rfl⟩ := Option.map_eq_some_iff.mp hf
  split_ifs
  · exact hpos
  · exact h j f' hf'

theorem PosNonneg.openFile {path : CStr} (h : s.PosNonneg) : (s.openFile path).2.PosNonneg := by
  cases hi : s.lookup path with
  | none =>
    rw [openFile_of_none hi]
    exact h
  | some i =>
    rw [openFile_of_lookup hi]
    exact h.setPos (i := i) (le_refl 0)

theorem PosNonneg.close (h : s.PosNonneg) : (s.close fd).2.PosNonneg := by
  unfold Initrd.close
  dsimp only
  split <;> exact h

theorem PosNonneg.read (h : s.PosNonneg) : (s.read fd count).2.PosNonneg := by
  cases hc : (s.read fd count).1.2 with
  | none =>
    rw [read_state_of_not_copied hc]
    exact h
  | some copied =>
    cases hi : s.info fd with
    | none =>
      rw [Initrd.read, hi] at hc
      exact absurd hc (by simp)
    | some p =>
      obtain ⟨⟨hpass, -⟩, -⟩ := (read_copied_iff hi).mp hc
      rw [read_state_of_copied hi hc]
      refine h.setPos ?_
      have hsize := p.2.size.isLt
      rw [BitVec.add_comm, BitVec.toInt_eq_toNat_of_lt (by omega)]
      exact Int.natCast_nonneg _

theorem PosNonneg.lseek (h : s.PosNonneg)
    (hseek : ∀ i info, s.info fd = some (i, info) → 0 ≤ (FileInfo.seek info offset whence).toInt) :
    (s.lseek fd offset whence).2.PosNonneg := by
  unfold Initrd.lseek
  split
  · exact h
  · next i info hi => exact h.setPos (hseek i info hi)

end Initrd

-- ---------------------------------------------------------------------------
-- Runs
-- ---------------------------------------------------------------------------

namespace VFS

variable {mp : List Byte} {s : Initrd} {st : VFS Initrd} {c : VfsCall} {cs : List VfsCall}

/-- What a call copies comes from indices in `[0, size)` of the file. -/
def CopiesInside (st : VFS Initrd) : VfsCall → Prop
  | .read fd count =>
    ∀ i info copied, st.world.info fd = some (i, info) → (st.read fd count).1.2 = some copied →
      0 ≤ copied.curPos.toInt ∧ copied.curPos.toInt + copied.count.toNat ≤ info.size.toNat
  | _ => True

/-- The sum that a read of a file with data checks does not wrap to something
within the size. -/
def NoWrap (st : VFS Initrd) : VfsCall → Prop
  | .read fd count =>
    ∀ i info, st.filesystem fd ≠ none → st.world.info fd = some (i, info) → info.data ≠ 0 →
      count.toNat + info.curPos.toNat < 2 ^ 64 ∨
      info.size.toNat + 2 ^ 64 < count.toNat + info.curPos.toNat
  | _ => True

theorem Mounted.copiesInside_iff (h : st.Mounted mp) : st.CopiesInside c ↔ st.NoWrap c := by
  cases c with
  | read fd count =>
    constructor
    · intro hin i info hfs hinfo hdata
      obtain ⟨fs, hfs⟩ := Option.ne_none_iff_exists'.mp hfs
      obtain rfl := h.filesystem hfs
      have hread : (st.read fd count).1 = (st.world.read fd count).1 := by
        rw [VFS.read, hfs]
        rfl
      by_contra hwrap
      obtain ⟨hge, hle⟩ := not_or.mp hwrap
      have hpass : (count + info.curPos).toNat ≤ info.size.toNat :=
        Initrd.pass_iff.mpr (.inr ⟨not_lt.mp hge, by omega⟩)
      have hcopied := (Initrd.read_copied_iff hinfo).mpr ⟨⟨hpass, hdata⟩, rfl⟩
      exact hge ((Initrd.inside_iff hpass).mp (hin i info _ hinfo (hread ▸ hcopied)))
    · intro hno i info copied hinfo hcopied
      cases hfs : st.filesystem fd with
      | none =>
        rw [VFS.read, hfs] at hcopied
        exact absurd hcopied (by simp)
      | some fs =>
        obtain rfl := h.filesystem hfs
        rw [VFS.read, hfs] at hcopied
        obtain ⟨⟨hpass, hdata⟩, rfl⟩ := (Initrd.read_copied_iff hinfo).mp hcopied
        refine (Initrd.inside_iff hpass).mpr ((hno i info ?_ hinfo hdata).resolve_right ?_)
        · rw [hfs]
          exact Option.some_ne_none _
        · have hpos := info.curPos.isLt
          have hcount := count.isLt
          rcases Initrd.pass_iff.mp hpass with hle | ⟨-, hle⟩ <;> omega
  | _ => exact Iff.rfl

/-- Every read of a run stays inside its file exactly when none of the sums it
checks wraps to something within the size. -/
theorem run_copiesInside_iff (h : Run (Steps VFS.step) (VFS.mounted mp s) cs st) :
    (∀ past c rest mid, cs = past ++ c :: rest → Run (Steps VFS.step) (VFS.mounted mp s) past mid →
        mid.CopiesInside c) ↔
      Run (Guarded NoWrap (Steps VFS.step)) (VFS.mounted mp s) cs st := by
  rw [run_guarded_iff, and_iff_right h]
  constructor
  · intro hin past c rest mid hcs hmid
    exact (run_mounted hmid).1.copiesInside_iff.mp (hin past c rest mid hcs hmid)
  · intro hno past c rest mid hcs hmid
    exact (run_mounted hmid).1.copiesInside_iff.mpr (hno past c rest mid hcs hmid)

theorem twoFiles_open_read_noWrap :
    Run (Guarded NoWrap (Steps VFS.step)) twoFiles [.openFile pathA, .read 0 8]
      ((twoFiles.call (.openFile pathA)).2.call (.read 0 8)).2 := by
  refine .cons ⟨trivial, rfl⟩ (.single ⟨?_, rfl⟩)
  intro i info _ hinfo _
  have h0 : (twoFiles.call (.openFile pathA)).2.world.info 0 =
      some (0, { data := 4096, size := 8, name := cstr [0x61] }) := rfl
  obtain rfl := congrArg Prod.snd (Option.some.inj (h0.symm.trans hinfo))
  exact .inl (by decide)

theorem run_copiesInside_iff_twoFiles :
    ∃ st, Run (Steps VFS.step) twoFiles [.openFile pathA, .read 0 8] st ∧
      ∀ past c rest mid, [VfsCall.openFile pathA, .read 0 8] = past ++ c :: rest →
        Run (Steps VFS.step) twoFiles past mid → mid.CopiesInside c := by
  have hrun : Run (Steps VFS.step) (VFS.mounted [0x2f] _) _ _ := twoFiles_open_read_noWrap.unguard
  exact ⟨_, hrun, (run_copiesInside_iff hrun).mpr twoFiles_open_read_noWrap⟩

/-- After a seek to `-8`, a read of eight bytes copies what lies before the
file. -/
theorem twoFiles_not_copiesInside :
    ∃ st, Run (Steps VFS.step) twoFiles [.openFile pathA, .lseek 0 (-8) seekSet] st ∧
      (st.read 0 8).1 = (8, some ⟨-8, 8, List.replicate 8 0⟩) ∧ ¬st.CopiesInside (.read 0 8) := by
  obtain ⟨st, hst⟩ : ∃ st,
    [VfsCall.openFile pathA, .lseek 0 (-8) seekSet].foldlM VFS.step twoFiles = some st :=
    ⟨_, rfl⟩
  have hread : (st.read 0 8).1 = (8, some ⟨-8, 8, List.replicate 8 0⟩) := by
    obtain rfl := Option.some.inj hst
    rfl
  refine ⟨st, run_steps_iff.mpr hst, hread, fun hin => ?_⟩
  have hinfo : st.world.info 0 =
      some (0, { data := 4096, size := 8, name := cstr [0x61], curPos := -8 }) := by
    obtain rfl := Option.some.inj hst
    rfl
  have hneg := (hin _ _ _ hinfo (congrArg Prod.snd hread)).1
  exact absurd hneg (by decide)

/-- Calls that keep away from the wrap: seeks to non-negative positions and
counts below `2^63`. -/
def Modest (st : VFS Initrd) : VfsCall → Prop
  | .read _ count => count.toNat < 2 ^ 63
  | .lseek fd offset whence => ∀ i info, st.world.info fd = some (i, info) →
      0 ≤ (Initrd.FileInfo.seek info offset whence).toInt
  | _ => True

theorem Mounted.posNonneg (h : st.Mounted mp) (hpos : st.world.PosNonneg) (hc : st.Modest c) :
    (st.call c).2.world.PosNonneg := by
  cases hf : st.forward c with
  | none =>
    rw [call_of_not_forward hf]
    exact hpos
  | some c' =>
    rw [(h.call_of_forward hf).2]
    cases c with
    | openFile path =>
      obtain ⟨fs, _, rfl⟩ := Option.map_eq_some_iff.mp hf
      exact hpos.openFile
    | read fd count =>
      obtain ⟨fs, _, rfl⟩ := Option.map_eq_some_iff.mp hf
      exact hpos.read
    | lseek fd offset whence =>
      obtain ⟨fs, _, rfl⟩ := Option.map_eq_some_iff.mp hf
      exact hpos.lseek hc
    | tell fd =>
      obtain ⟨fs, _, rfl⟩ := Option.map_eq_some_iff.mp hf
      exact hpos
    | close fd =>
      obtain ⟨fs, _, rfl⟩ := Option.map_eq_some_iff.mp hf
      exact hpos.close

theorem Modest.noWrap (hc : st.Modest c) (hpos : st.world.PosNonneg) : st.NoWrap c := by
  cases c with
  | read fd count =>
    intro i info _ hinfo _
    have hnonneg := hpos i info (Initrd.info_files hinfo)
    have hlt : count.toNat < 2 ^ 63 := hc
    rw [BitVec.toInt_eq_toNat_cond] at hnonneg
    split at hnonneg <;> omega
  | _ => trivial

theorem run_copiesInside_of_modest (hs : s.PosNonneg)
    (h : Run (Guarded Modest (Steps VFS.step)) (VFS.mounted mp s) cs st) :
    Run (Guarded CopiesInside (Steps VFS.step)) (VFS.mounted mp s) cs st := by
  have hinv : ∀ {past mid}, Run (Guarded Modest (Steps VFS.step)) (VFS.mounted mp s) past mid →
      mid.Mounted mp ∧ mid.world.PosNonneg := by
    intro past mid hmid
    refine hmid.invariant (I := fun mid => mid.Mounted mp ∧ mid.world.PosNonneg)
      ⟨mounted_mounted s, hs⟩ ?_
    rintro t e u ⟨hm, hpos⟩ ⟨hmod, hstep⟩
    obtain rfl := Option.some.inj hstep
    exact ⟨hm.call, hm.posNonneg hpos hmod⟩
  induction h with
  | nil => exact .nil
  | snoc h hstep ih =>
    obtain ⟨hm, hpos⟩ := hinv h
    exact .snoc ih ⟨hm.copiesInside_iff.mpr (hstep.1.noWrap hpos), hstep.2⟩

end VFS

end LimineOS
