import LimineOS.Fs.Vfs
import LimineOS.Lib.Unwinding

/-!
# Two descriptors

Two holders use the initrd through the descriptors `a` and `b`. The position
belongs to the file, so what the holder of `a` sees is the record of its file
(`SameView`), and the holder of `b` changes that view exactly where a call on
`b` moves the position of `a`'s file (`Disturbs`). The answers on `a` are those
of the run without `b` as long as no call on `b` does (`run_independent_iff`).
-/

namespace LimineOS

open ByteMemory Transition Unwinding

namespace Initrd

/-- The calls of the holder of a descriptor that go on in the other run. -/
def Uses (a : BitVec 32) : VfsCall → Prop
  | .read fd _ => fd = a
  | .lseek fd _ _ => fd = a
  | .tell fd => fd = a
  | _ => False

instance (a : BitVec 32) : DecidablePred (Uses a)
  | .openFile _ => inferInstanceAs (Decidable False)
  | .read fd _ => inferInstanceAs (Decidable (fd = a))
  | .lseek fd _ _ => inferInstanceAs (Decidable (fd = a))
  | .tell fd => inferInstanceAs (Decidable (fd = a))
  | .close _ => inferInstanceAs (Decidable False)

def Concerns (b : BitVec 32) (s : Initrd) : VfsCall → Prop
  | .openFile path => (s.openFile path).1 = b
  | .read fd _ => fd = b
  | .lseek fd _ _ => fd = b
  | .tell fd => fd = b
  | .close fd => fd = b

def Interleaved (a b : BitVec 32) (s : Initrd) (c : VfsCall) : Prop := Uses a c ∨ Concerns b s c

/-- The call moves the position of the file of `a`: it opens that file, or
reads or seeks in it, and the position was another before. -/
def Disturbs (a : BitVec 32) (s : Initrd) : VfsCall → Prop
  | .openFile path => ∃ i info, s.info a = some (i, info) ∧ s.lookup path = some i ∧ info.curPos ≠ 0
  | .read fd count => ∃ i info, s.info a = some (i, info) ∧ s.info fd = some (i, info) ∧
      count + info.curPos ≤ info.size.setWidth 64 ∧ info.data ≠ 0 ∧ count ≠ 0
  | .lseek fd offset whence => ∃ i info, s.info a = some (i, info) ∧ s.info fd = some (i, info) ∧
      FileInfo.seek info offset whence ≠ info.curPos
  | _ => False

def SameView (a : BitVec 32) (s t : Initrd) : Prop := s.mem = t.mem ∧ s.info a = t.info a

section
variable {a b fd : BitVec 32} {s t : Initrd} {c : VfsCall} {i j : Nat} {info : FileInfo}
  {pos : BitVec 64}

theorem SameView.setPos (h : SameView a s t) : SameView a (s.setPos i pos) (t.setPos i pos) := by
  refine ⟨h.1, ?_⟩
  rw [info_setPos, info_setPos, h.2]

theorem sameView_setPos (h : ∀ info, s.info a = some (i, info) → info.curPos = pos) :
    SameView a s (s.setPos i pos) := by
  refine ⟨rfl, ?_⟩
  rw [info_setPos]
  cases hi : s.info a with
  | none => rfl
  | some p =>
    rw [Option.map_some]
    by_cases heq : i = p.1
    · rw [if_pos heq, ← h p.2 (by rw [hi, heq])]
    · rw [if_neg heq]

theorem tell_setPos (hi : s.info a = some (i, info)) : (s.setPos i pos).tell a = pos := by
  rw [tell, info_setPos, hi, Option.map_some, if_pos rfl]

theorem tell_congr (h : SameView a s t) : s.tell a = t.tell a := by rw [tell, tell, h.2]

theorem SameView.equivalence : Equivalence (SameView a) where
  refl _ := ⟨rfl, rfl⟩
  symm h := ⟨h.1.symm, h.2.symm⟩
  trans h h' := ⟨h.1.trans h'.1, h.2.trans h'.2⟩

theorem read_congr {count : BitVec 64} (h : SameView a s t) :
    (s.read a count).1 = (t.read a count).1 ∧ SameView a (s.read a count).2 (t.read a count).2 := by
  rw [read, read, h.1, h.2]
  cases hi : t.info a with
  | none => exact ⟨rfl, h⟩
  | some p =>
    dsimp only
    split_ifs
    · exact ⟨rfl, h⟩
    · exact ⟨rfl, h⟩
    · exact ⟨rfl, h.setPos⟩

theorem lseek_congr {offset : BitVec 64} {whence : BitVec 32} (h : SameView a s t) :
    (s.lseek a offset whence).1 = (t.lseek a offset whence).1 ∧
      SameView a (s.lseek a offset whence).2 (t.lseek a offset whence).2 := by
  rw [lseek, lseek, h.2]
  cases hi : t.info a with
  | none => exact ⟨rfl, h⟩
  | some p => exact ⟨rfl, h.setPos⟩

theorem call_congr (h : SameView a s t) (hc : Uses a c) :
    (s.call c).1 = (t.call c).1 ∧ SameView a (s.call c).2 (t.call c).2 := by
  cases c with
  | read fd count =>
    obtain rfl : fd = a := hc
    exact ⟨congrArg (fun r : BitVec 64 × Option Copy => Result.read r.1 r.2) (read_congr h).1,
      (read_congr h).2⟩
  | lseek fd offset whence =>
    obtain rfl : fd = a := hc
    exact ⟨congrArg Result.offset (lseek_congr h).1, (lseek_congr h).2⟩
  | tell fd =>
    obtain rfl : fd = a := hc
    exact ⟨congrArg Result.offset (tell_congr h), h⟩
  | openFile path => exact absurd hc id
  | close fd => exact absurd hc id

theorem sameView_view : View call (Uses a) (SameView a) where
  equivalence := SameView.equivalence
  output h hc := (call_congr h hc).1
  step h hc := (call_congr h hc).2

-- ---------------------------------------------------------------------------
-- Calls on the other descriptor
-- ---------------------------------------------------------------------------

theorem setPos_noticed_or (h : SameView a (s.setPos i pos) t) :
    (∃ info, s.info a = some (i, info) ∧ info.curPos ≠ pos ∧ s.tell a ≠ t.tell a) ∨
      (∀ info, s.info a = some (i, info) → info.curPos = pos) ∧ SameView a s t := by
  by_cases hd : ∀ info, s.info a = some (i, info) → info.curPos = pos
  · exact .inr ⟨hd, SameView.equivalence.trans (sameView_setPos hd) h⟩
  · push Not at hd
    obtain ⟨info, hi, hne⟩ := hd
    refine .inl ⟨info, hi, hne, ?_⟩
    rw [← tell_congr h, tell_setPos hi, tell, hi]
    exact hne

theorem sameView_openFile {path : CStr} (hi : s.lookup path = some i) (hfd : (s.openFile path).1 ≠ a) :
    SameView a (s.setPos i 0) (s.openFile path).2 := by
  rw [openFile_of_lookup hi] at hfd ⊢
  refine ⟨rfl, ?_⟩
  rw [info_eq, info_eq]
  show _ = ((s.openFiles.put s.curFd i).get a).bind _
  rw [UnorderedMap.get_put, if_neg (Ne.symm hfd)]
  rfl

theorem sameView_close (hfd : fd ≠ a) : SameView a s (s.close fd).2 := by
  have hfiles : (s.close fd).2.files = s.files ∧ (s.close fd).2.mem = s.mem := by
    unfold close
    dsimp only
    split <;> exact ⟨rfl, rfl⟩
  refine ⟨hfiles.2.symm, ?_⟩
  rw [info_eq, info_eq, close_openFiles, if_neg (Ne.symm hfd), hfiles.1]

theorem info_unique {info' : FileInfo} (h : s.info a = some (i, info))
    (h' : s.info b = some (i, info')) :
    info = info' :=
  Option.some.inj ((info_files h).symm.trans (info_files h'))

theorem read_noticed_or {count : BitVec 64} :
    Disturbs a s (.read fd count) ∧ s.tell a ≠ (s.read fd count).2.tell a ∨
      ¬Disturbs a s (.read fd count) ∧ SameView a s (s.read fd count).2 := by
  have hsame := SameView.equivalence.refl (r := SameView a) (s.read fd count).2
  cases hi : s.info fd with
  | none =>
    refine .inr ⟨?_, ?_⟩
    · rintro ⟨i, info, _, hfd, _⟩
      exact absurd (hi.symm.trans hfd) (by simp)
    · rw [read, hi]
      exact SameView.equivalence.refl s
  | some p =>
    obtain ⟨i, info⟩ := p
    by_cases hpass : count + info.curPos ≤ info.size.setWidth 64 ∧ info.data ≠ 0
    · have hstate : (s.read fd count).2 = s.setPos i (info.curPos + count) := by
        rw [read, hi]
        dsimp only
        rw [if_neg (BitVec.not_lt.mpr hpass.1), if_neg hpass.2]
      nth_rewrite 1 [hstate] at hsame
      rcases setPos_noticed_or hsame with ⟨info', ha, hne, htell⟩ | ⟨hall, hview⟩
      · obtain rfl := info_unique ha hi
        refine .inl ⟨⟨i, info', ha, hi, hpass.1, hpass.2, ?_⟩, htell⟩
        rintro rfl
        exact hne (BitVec.add_zero _).symm
      · refine .inr ⟨?_, hview⟩
        rintro ⟨i', info', ha, hfd, -, -, hcount⟩
        obtain ⟨rfl, rfl⟩ := Prod.mk.inj (Option.some.inj (hi.symm.trans hfd))
        exact hcount (by simpa using hall info ha)
    · refine .inr ⟨?_, ?_⟩
      · rintro ⟨i', info', _, hfd, hle, hdata, _⟩
        obtain ⟨rfl, rfl⟩ := Prod.mk.inj (Option.some.inj (hi.symm.trans hfd))
        exact hpass ⟨hle, hdata⟩
      · have hstate : (s.read fd count).2 = s := by
          rw [read, hi]
          dsimp only
          split_ifs with hgt hdata
          · rfl
          · rfl
          · exact absurd ⟨BitVec.not_lt.mp hgt, hdata⟩ hpass
        rw [hstate]
        exact SameView.equivalence.refl s

theorem lseek_noticed_or {offset : BitVec 64} {whence : BitVec 32} :
    Disturbs a s (.lseek fd offset whence) ∧ s.tell a ≠ (s.lseek fd offset whence).2.tell a ∨
      ¬Disturbs a s (.lseek fd offset whence) ∧ SameView a s (s.lseek fd offset whence).2 := by
  have hsame := SameView.equivalence.refl (r := SameView a) (s.lseek fd offset whence).2
  cases hi : s.info fd with
  | none =>
    refine .inr ⟨?_, ?_⟩
    · rintro ⟨i, info, _, hfd, _⟩
      exact absurd (hi.symm.trans hfd) (by simp)
    · rw [lseek, hi]
      exact SameView.equivalence.refl s
  | some p =>
    obtain ⟨i, info⟩ := p
    have hstate : (s.lseek fd offset whence).2 = s.setPos i (FileInfo.seek info offset whence) := by
      rw [lseek, hi]
    nth_rewrite 1 [hstate] at hsame
    rcases setPos_noticed_or hsame with ⟨info', ha, hne, htell⟩ | ⟨hall, hview⟩
    · obtain rfl := info_unique ha hi
      exact .inl ⟨⟨i, info', ha, hi, Ne.symm hne⟩, htell⟩
    · refine .inr ⟨?_, hview⟩
      rintro ⟨i', info', ha, hfd, hne⟩
      obtain ⟨rfl, rfl⟩ := Prod.mk.inj (Option.some.inj (hi.symm.trans hfd))
      exact hne (hall info ha).symm

theorem noticed_or (hab : a ≠ b) (hc : Concerns b s c) :
    Disturbs a s c ∧ s.tell a ≠ (s.call c).2.tell a ∨ ¬Disturbs a s c ∧ SameView a s (s.call c).2 := by
  cases c with
  | openFile path =>
    cases hi : s.lookup path with
    | none =>
      rw [call, openFile_of_none hi]
      refine .inr ⟨?_, SameView.equivalence.refl s⟩
      rintro ⟨i, info, _, hl, _⟩
      exact absurd (hi.symm.trans hl) (by simp)
    | some i =>
      have hfd : (s.openFile path).1 ≠ a := fun h => hab (h.symm.trans hc)
      rcases setPos_noticed_or (sameView_openFile hi hfd) with ⟨info, ha, hne, htell⟩ | ⟨hall, hview⟩
      · exact .inl ⟨⟨i, info, ha, hi, hne⟩, htell⟩
      · refine .inr ⟨?_, hview⟩
        rintro ⟨i', info, ha, hl, hne⟩
        obtain rfl := Option.some.inj (hi.symm.trans hl)
        exact hne (hall info ha)
  | read fd count => exact read_noticed_or
  | lseek fd offset whence => exact lseek_noticed_or
  | tell fd => exact .inr ⟨id, SameView.equivalence.refl s⟩
  | close fd =>
    obtain rfl : fd = b := hc
    exact .inr ⟨id, sameView_close (Ne.symm hab)⟩

theorem Concerns.not_uses (hab : a ≠ b) (hc : Concerns b s c) : ¬Uses a c := by
  intro ha
  cases c with
  | openFile path => exact ha
  | read fd count => exact hab (ha.symm.trans hc)
  | lseek fd offset whence => exact hab (ha.symm.trans hc)
  | tell fd => exact hab (ha.symm.trans hc)
  | close fd => exact ha

theorem quiet_iff (hab : a ≠ b) (hc : Interleaved a b s c) :
    Quiet call (Uses a) (SameView a) s c ↔ (Concerns b s c → ¬Disturbs a s c) := by
  rcases hc with ha | hb
  · exact iff_of_true (fun hnot => absurd ha hnot) fun hb => absurd ha (hb.not_uses hab)
  · constructor
    · rintro hquiet - hd
      rcases noticed_or hab hb with ⟨_, htell⟩ | ⟨hnd, _⟩
      · exact htell (tell_congr (hquiet (hb.not_uses hab)))
      · exact hnd hd
    · rintro hnd -
      exact ((noticed_or hab hb).resolve_left fun h => hnd hb h.1).2

end

/-- In an interleaving of calls on `a` with calls that return or use `b`, the
answers on `a` are at every point those of the run without `b`, exactly when no
call on `b` moves the position of `a`'s file. -/
theorem run_independent_iff {a b : BitVec 32} {s t : Initrd} {cs : List VfsCall} (hab : a ≠ b)
    (h : Run (Guarded (Interleaved a b) (Steps (next call))) s cs t) :
    (∀ past rest op, cs = past ++ rest → Uses a op → Independent call (Uses a) s (past ++ [op])) ↔
      Run (Guarded (fun s c => Concerns b s c → ¬Disturbs a s c) (Steps (next call))) s cs t := by
  have hguard := run_guarded_iff.mp h
  rw [sameView_view.independent_iff ?_ h, run_guarded_iff, run_guarded_iff]
  · refine and_congr_right fun _ => ?_
    constructor
    · intro hq past e rest u hcs hu
      exact (quiet_iff hab (hguard.2 past e rest u hcs hu)).mp (hq past e rest u hcs hu)
    · intro hq past e rest u hcs hu
      exact (quiet_iff hab (hguard.2 past e rest u hcs hu)).mpr (hq past e rest u hcs hu)
  · intro s c hall hnot hview
    have hb := hall.resolve_left hnot
    refine ⟨.tell a, rfl, fun heq => ?_⟩
    rcases noticed_or hab hb with ⟨_, htell⟩ | ⟨_, hsame⟩
    · exact htell (Result.offset.inj heq)
    · exact hview hsame

def openBoth : Initrd :=
  ((VFS.twoFiles.call (.openFile VFS.pathA)).2.call (.openFile VFS.pathB)).2.world

def openTwice : Initrd :=
  ((VFS.twoFiles.call (.openFile VFS.pathA)).2.call (.openFile VFS.pathA)).2.world

def readSeekTell : List VfsCall := [.read 0 4, .lseek 1 0 seekSet, .tell 0]

theorem readSeekTell_interleaved (s : Initrd) :
    ∃ t, Run (Guarded (Interleaved 0 1) (Steps (next call))) s readSeekTell t :=
  ⟨_, .cons ⟨.inl rfl, rfl⟩ (.cons ⟨.inr rfl, rfl⟩ (.single ⟨.inl rfl, rfl⟩))⟩

theorem openBoth_not_disturbed : ¬Disturbs 0 (openBoth.call (.read 0 4)).2 (.lseek 1 0 seekSet) := by
  rintro ⟨i, info, h0, h1, -⟩
  have hi0 : ((openBoth.call (.read 0 4)).2.info 0).map Prod.fst = some 0 := rfl
  have hi1 : ((openBoth.call (.read 0 4)).2.info 1).map Prod.fst = some 1 := rfl
  rw [h0] at hi0
  rw [h1] at hi1
  exact absurd (hi0.symm.trans hi1) (by decide)

theorem run_independent_iff_openBoth :
    ∃ t, Run (Guarded (Interleaved 0 1) (Steps (next call))) openBoth readSeekTell t ∧
      ∀ past rest op, readSeekTell = past ++ rest → Uses 0 op →
      Independent call (Uses 0) openBoth (past ++ [op]) := by
  obtain ⟨t, h⟩ := readSeekTell_interleaved openBoth
  refine ⟨t, h, (run_independent_iff (by decide) h).mpr ?_⟩
  have hguard : ∃ u, Run (Guarded (fun s c => Concerns 1 s c → ¬Disturbs 0 s c) (Steps (next call)))
      openBoth readSeekTell u :=
    ⟨_, .cons ⟨fun hb => absurd hb (show (0 : BitVec 32) ≠ 1 by decide), rfl⟩
      (.cons ⟨fun _ => openBoth_not_disturbed, rfl⟩ (.single ⟨fun _ => id, rfl⟩))⟩
  obtain ⟨u, hu⟩ := hguard
  obtain rfl := hu.unguard.unique h.unguard
  exact hu

/-- Two descriptors of one file: the seek on the one moves the other. -/
theorem openTwice_not_independent :
    ∃ t, Run (Guarded (Interleaved 0 1) (Steps (next call))) openTwice readSeekTell t ∧
      (openTwice.info 0).isSome ∧ (openTwice.info 1).isSome ∧
      ¬Independent call (Uses 0) openTwice readSeekTell := by
  obtain ⟨t, h⟩ := readSeekTell_interleaved openTwice
  refine ⟨t, h, rfl, rfl, ?_⟩
  unfold Independent
  decide

end Initrd

end LimineOS
