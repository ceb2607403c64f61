import LimineOS.Fs.Vfs

/-!
# Descriptors

The initrd takes the next descriptor from one counter, which `open` moves up
and every `close` moves down, whatever it closes. As long as the descriptors
that are closed come off the open ones as off a stack, the open descriptors are
those below the counter (`Stacked`) and the next one is fresh. The first close
that breaks the order leaves the counter on a descriptor that is open, or below
zero (`Stacked.orderly_iff`), so that the order is exactly what a run needs
(`run_freshOpen_iff`).
-/

namespace LimineOS

open ByteMemory Transition

namespace Initrd

def FreshFd (s : Initrd) : Prop := 0 ≤ s.curFd.toInt ∧ s.openFiles.get s.curFd = none

/-- What a call that keeps descriptors fresh may do: close only the largest of
the open descriptors, and open a file only while one of the descriptors below
the largest `int` is free. -/
def Orderly (s : Initrd) : VfsCall → Prop
  | .openFile path =>
    (s.lookup path).isSome → ∃ n < 2 ^ 31 - 1, s.openFiles.get (BitVec.ofNat 32 n) = none
  | .close fd => s.openFiles.get fd ≠ none ∧ ∀ d, s.openFiles.get d ≠ none → d.toInt ≤ fd.toInt
  | _ => True

structure Stacked (n : Nat) (s : Initrd) : Prop where
  bound : n < 2 ^ 31
  curFd : s.curFd = BitVec.ofNat 32 n
  openFiles : ∀ d, s.openFiles.get d ≠ none ↔ d.toNat < n

section
variable {s t : Initrd} {n : Nat} {c : VfsCall} {fd d : BitVec 32}

theorem toInt_ofNat32 (h : n < 2 ^ 31) : (BitVec.ofNat 32 n).toInt = n := by
  rw [BitVec.toInt_eq_toNat_of_lt] <;> rw [BitVec.toNat_ofNat, Nat.mod_eq_of_lt] <;> omega

theorem toNat_ofNat32 (h : n < 2 ^ 31) : (BitVec.ofNat 32 n).toNat = n := by
  rw [BitVec.toNat_ofNat]
  omega

theorem ofNat32_sub_one (h : 0 < n) : BitVec.ofNat 32 n - 1 = BitVec.ofNat 32 (n - 1) := by
  obtain ⟨m, rfl⟩ := Nat.exists_eq_add_of_lt h
  rw [Nat.zero_add, Nat.add_sub_cancel, BitVec.ofNat_add]
  exact BitVec.add_sub_cancel _ _

theorem Stacked.toInt (h : Stacked n s) (hd : s.openFiles.get d ≠ none) : d.toInt = d.toNat := by
  have hlt := (h.openFiles d).mp hd
  have hn := h.bound
  exact BitVec.toInt_eq_toNat_of_lt (by omega)

theorem Stacked.freshFd (h : Stacked n s) : s.FreshFd := by
  refine ⟨?_, ?_⟩
  · rw [h.curFd, toInt_ofNat32 h.bound]
    exact Int.natCast_nonneg n
  · have hnot := mt (h.openFiles s.curFd).mp
    rw [h.curFd, toNat_ofNat32 h.bound, not_not] at hnot
    rw [h.curFd]
    exact hnot (Nat.lt_irrefl n)

theorem Stacked.congr (h : Stacked n s) (hcur : t.curFd = s.curFd) (hopen : t.openFiles = s.openFiles) :
    Stacked n t :=
  ⟨h.bound, hcur.trans h.curFd, hopen ▸ h.openFiles⟩

theorem Stacked.setPos (h : Stacked n s) (ht : t = s ∨ ∃ i pos, t = s.setPos i pos) : Stacked n t := by
  rcases ht with rfl | ⟨i, pos, rfl⟩
  · exact h
  · exact h.congr rfl rfl

theorem Stacked.openFile {path : CStr} {i : Nat} (h : Stacked n s) (hn : n + 1 < 2 ^ 31)
    (hi : s.lookup path = some i) : Stacked (n + 1) (s.openFile path).2 := by
  rw [openFile_of_lookup hi]
  refine ⟨hn, ?_, fun d => ?_⟩
  · show s.curFd + 1 = _
    rw [h.curFd, BitVec.ofNat_add]
    rfl
  · show (s.openFiles.put s.curFd i).get d ≠ none ↔ _
    rw [UnorderedMap.get_put, h.curFd]
    by_cases hd : d = BitVec.ofNat 32 n
    · rw [if_pos hd, hd, toNat_ofNat32 h.bound]
      exact iff_of_true (Option.some_ne_none i) (Nat.lt_succ_self n)
    · have hne : d.toNat ≠ n := by
        rintro rfl
        exact hd (BitVec.ofNat_toNat 32 d ▸ (BitVec.setWidth_eq d).symm)
      rw [if_neg hd, h.openFiles d]
      omega

theorem Stacked.close (h : Stacked n s) (hfd : s.openFiles.get fd ≠ none)
    (hmax : ∀ d, s.openFiles.get d ≠ none → d.toInt ≤ fd.toInt) : Stacked (n - 1) (s.close fd).2 := by
  have hlt := (h.openFiles fd).mp hfd
  have hn := h.bound
  have hlast : s.openFiles.get (BitVec.ofNat 32 (n - 1)) ≠ none := by
    rw [h.openFiles, toNat_ofNat32 (by omega)]
    omega
  have htop : fd.toNat = n - 1 := by
    have hle := hmax _ hlast
    rw [toInt_ofNat32 (by omega), h.toInt hfd] at hle
    omega
  refine ⟨by omega, ?_, fun d => ?_⟩
  · rw [close_curFd, h.curFd, ofNat32_sub_one (by omega)]
  · rw [close_openFiles]
    by_cases hd : d = fd
    · rw [if_pos hd, hd, htop]
      exact iff_of_false (not_not_intro rfl) (Nat.lt_irrefl _)
    · have hne : d.toNat ≠ fd.toNat := mt BitVec.eq_of_toNat_eq hd
      rw [if_neg hd, h.openFiles d]
      omega

theorem Stacked.call (h : Stacked n s) (hc : s.Orderly c) : ∃ n', Stacked n' (s.call c).2 := by
  cases c with
  | openFile path =>
    cases hi : s.lookup path with
    | none =>
      rw [Initrd.call, openFile_of_none hi]
      exact ⟨n, h⟩
    | some i =>
      obtain ⟨m, hm, hfree⟩ := hc (Option.isSome_of_eq_some hi)
      have hle : ¬m < n := by
        rw [← toNat_ofNat32 (show m < 2 ^ 31 by omega), ← h.openFiles]
        exact not_not_intro hfree
      have hn := h.bound
      by_cases hlast : n + 1 < 2 ^ 31
      · exact ⟨n + 1, h.openFile hlast hi⟩
      · omega
  | read fd count => exact ⟨n, h.setPos (read_state _ fd count)⟩
  | lseek fd offset whence => exact ⟨n, h.setPos (lseek_state _ fd offset whence)⟩
  | tell fd => exact ⟨n, h⟩
  | close fd => exact ⟨n - 1, h.close hc.1 hc.2⟩

/-- A close out of order: the counter ends on a descriptor that stays open. -/
theorem Stacked.close_not_freshFd (h : Stacked n s) (hc : ¬s.Orderly (.close fd)) :
    ¬(s.close fd).2.FreshFd := by
  rintro ⟨hpos, hfree⟩
  have hn := h.bound
  rw [close_openFiles] at hfree
  rw [close_curFd, h.curFd] at hpos hfree
  rcases Nat.eq_zero_or_pos n with rfl | hn0
  · exact absurd hpos (by decide)
  · rw [ofNat32_sub_one hn0] at hfree
    have hlast : s.openFiles.get (BitVec.ofNat 32 (n - 1)) ≠ none := by
      rw [h.openFiles, toNat_ofNat32 (by omega)]
      omega
    split_ifs at hfree with heq
    · -- the counter's descriptor is the one closed, which was then the largest
      refine hc ⟨heq ▸ hlast, fun d hd => ?_⟩
      have hlt := (h.openFiles d).mp hd
      rw [← heq, toInt_ofNat32 (by omega), h.toInt hd]
      omega
    · exact hlast hfree

theorem Stacked.openFile_not_freshFd {path : CStr} (h : Stacked n s)
    (hc : ¬s.Orderly (.openFile path)) :
    ¬(s.openFile path).2.FreshFd := by
  obtain ⟨hsome, hfull⟩ := Classical.not_imp.mp hc
  obtain ⟨i, hi⟩ := Option.isSome_iff_exists.mp hsome
  have hn := h.bound
  have hmax : n = 2 ^ 31 - 1 := by
    by_contra hne
    refine hfull ⟨n, by omega, ?_⟩
    rw [← h.curFd]
    exact h.freshFd.2
  rintro ⟨hpos, -⟩
  rw [openFile_of_lookup hi] at hpos
  change 0 ≤ (s.curFd + 1).toInt at hpos
  rw [h.curFd, hmax] at hpos
  exact absurd hpos (by decide)

/-- A call leaves the next descriptor fresh exactly when it is orderly. -/
theorem Stacked.orderly_iff (h : Stacked n s) : s.Orderly c ↔ (s.call c).2.FreshFd := by
  constructor
  · intro hc
    obtain ⟨n', h'⟩ := h.call hc
    exact h'.freshFd
  · intro hfresh
    by_contra hc
    cases c with
    | openFile path => exact h.openFile_not_freshFd hc hfresh
    | close fd => exact h.close_not_freshFd hc hfresh
    | _ => exact hc trivial

end

end Initrd

-- ---------------------------------------------------------------------------
-- Runs
-- ---------------------------------------------------------------------------

namespace VFS

variable {mp : List Byte} {mem : Mem} {files : List FileInfo}

def Opens (st : VFS Initrd) (path : CStr) : Prop :=
  ∃ path', st.forward (.openFile path) = some (.openFile path') ∧ (st.world.lookup path').isSome

/-- Every open that succeeds next returns a non-negative descriptor that is
not open. -/
def FreshOpen (st : VFS Initrd) : Prop :=
  ∀ path, st.Opens path → 0 ≤ (st.openFile path).1.toInt ∧
    st.world.openFiles.get (st.openFile path).1 = none

def Orderly (st : VFS Initrd) (c : VfsCall) : Prop := ∀ c', st.forward c = some c' → st.world.Orderly c'

section
variable {st u : VFS Initrd} {c : VfsCall} {cs : List VfsCall} {path : CStr} {n : Nat}

theorem Mounted.openFile_fd (h : st.Mounted mp) (ho : st.Opens path) :
    (st.openFile path).1 = st.world.curFd := by
  obtain ⟨path', hf, hsome⟩ := ho
  obtain ⟨i, hi⟩ := Option.isSome_iff_exists.mp hsome
  have hr := (h.call_of_forward hf).1
  rw [Initrd.call, Initrd.openFile_of_lookup hi] at hr
  exact Result.int.inj hr

theorem Mounted.freshOpen_iff (h : st.Mounted mp) (ho : ∃ path, st.Opens path) :
    st.FreshOpen ↔ st.world.FreshFd := by
  obtain ⟨path, hpath⟩ := ho
  constructor
  · intro hfresh
    have hfd := hfresh path hpath
    rw [h.openFile_fd hpath] at hfd
    exact hfd
  · intro hfd path hpath
    rw [h.openFile_fd hpath]
    exact hfd

theorem Mounted.opens_congr (h : st.Mounted mp) (hu : u.Mounted mp)
    (hn : u.world.names = st.world.names) :
    u.Opens path ↔ st.Opens path := by
  have hr : u.resolve path = st.resolve path := by rw [VFS.resolve, VFS.resolve, h, hu]
  simp only [Opens, forward, hr, Initrd.lookup_eq, hn]

theorem Mounted.orderly_iff (h : st.Mounted mp) (hn : Initrd.Stacked n st.world)
    (ho : ∃ path, st.Opens path) : st.Orderly c ↔ (st.call c).2.FreshOpen := by
  have ho' : ∃ path, (st.call c).2.Opens path :=
    ho.imp fun _ => (h.opens_congr h.call h.call_names).mpr
  rw [h.call.freshOpen_iff ho', Orderly]
  cases hc : st.forward c with
  | none =>
    rw [call_of_not_forward hc]
    exact iff_of_true (fun c' hc' => absurd hc' (by simp)) hn.freshFd
  | some c' =>
    rw [(h.call_of_forward hc).2, ← hn.orderly_iff]
    constructor
    · intro hall
      exact hall c' rfl
    · rintro hord c'' heq
      obtain rfl := Option.some.inj heq
      exact hord

theorem Mounted.stacked_step (h : st.Mounted mp) (hn : Initrd.Stacked n st.world) (hc : st.Orderly c) :
    ∃ n', Initrd.Stacked n' (st.call c).2.world := by
  cases hf : st.forward c with
  | none =>
    rw [call_of_not_forward hf]
    exact ⟨n, hn⟩
  | some c' =>
    rw [(h.call_of_forward hf).2]
    exact hn.call (hc c' hf)

theorem stacked_mounted : Initrd.Stacked 0 (VFS.mounted mp { mem, files }).world where
  bound := by decide
  curFd := rfl
  openFiles d := iff_of_false (not_not_intro rfl) (Nat.not_lt_zero _)

theorem run_stacked (h : Run (Guarded Orderly (Steps VFS.step)) (VFS.mounted mp { mem, files }) cs st) :
    ∃ n, Initrd.Stacked n st.world := by
  have hinv := h.invariant (I := fun st => st.Mounted mp ∧ ∃ n, Initrd.Stacked n st.world)
    ⟨mounted_mounted _, 0, stacked_mounted⟩ ?_
  · exact hinv.2
  · rintro t e u ⟨hm, n, hn⟩ ⟨hord, hs⟩
    obtain rfl := Option.some.inj hs
    exact ⟨hm.call, hm.stacked_step hn hord⟩

end

/-- Throughout a run from the mounted initrd every open that succeeds returns a
fresh descriptor, exactly when there is no file to open or every call that
reaches the initrd is orderly. -/
theorem run_freshOpen_iff {cs : List VfsCall} {st : VFS Initrd}
    (h : Run (Steps VFS.step) (VFS.mounted mp { mem, files }) cs st) :
    (∀ past rest mid, cs = past ++ rest →
      Run (Steps VFS.step) (VFS.mounted mp { mem, files }) past mid →
        mid.FreshOpen) ↔
      (∀ path, ¬(VFS.mounted mp { mem, files }).Opens path) ∨
        Run (Guarded Orderly (Steps VFS.step)) (VFS.mounted mp { mem, files }) cs st := by
  have hopens : ∀ {past mid} path, Run (Steps VFS.step) (VFS.mounted mp { mem, files }) past mid →
      (mid.Opens path ↔ (VFS.mounted mp { mem, files }).Opens path) := by
    intro past mid path hmid
    obtain ⟨hm, hnames⟩ := run_mounted hmid
    exact (mounted_mounted _).opens_congr hm hnames
  constructor
  · intro hfresh
    by_cases ho : ∃ path, (VFS.mounted mp { mem, files }).Opens path
    · right
      -- by induction on the run: its first part is orderly, so the step is
      induction h with
      | nil => exact .nil
      | @snoc es t e u h hs ih =>
        have hguard := ih fun past rest mid he =>
          hfresh past (rest ++ [e]) mid (by rw [he, List.append_assoc])
        obtain ⟨n, hn⟩ := run_stacked hguard
        have hm := (run_mounted h).1
        refine .snoc hguard ⟨?_, hs⟩
        rw [hm.orderly_iff hn (ho.imp fun path => (hopens path h).mpr)]
        obtain rfl := Option.some.inj hs
        exact hfresh (es ++ [e]) [] _ (List.append_nil _).symm (.snoc h hs)
    · exact .inl fun path hpath => ho ⟨path, hpath⟩
  · rintro (hnone | hguard) past rest mid rfl hmid path hpath
    · exact absurd ((hopens path hmid).mp hpath) (hnone path)
    · obtain ⟨mid', hmid', -⟩ := run_append_iff.mp hguard
      obtain rfl := hmid.unique hmid'.unguard
      obtain ⟨n, hn⟩ := run_stacked hmid'
      exact ((run_mounted hmid).1.freshOpen_iff ⟨path, hpath⟩).mpr hn.freshFd path hpath

theorem twoFiles_open_close_orderly :
    Run (Guarded Orderly (Steps VFS.step)) twoFiles [.openFile pathA, .close 0]
      ((twoFiles.call (.openFile pathA)).2.call (.close 0)).2 := by
  refine .cons ⟨?_, rfl⟩ (.single ⟨?_, rfl⟩)
  · intro c' hc'
    obtain rfl :=
      Option.some.inj ((show twoFiles.forward (.openFile pathA) = _ from rfl).symm.trans hc')
    exact fun _ => ⟨0, by decide, rfl⟩
  · intro c' hc'
    obtain rfl := Option.some.inj
      ((show (twoFiles.call (.openFile pathA)).2.forward (.close 0) = _ from rfl).symm.trans hc')
    have h0 : Initrd.Stacked 0 twoFiles.world := stacked_mounted
    have hlookup : twoFiles.world.lookup (pathA.skip 1) = some 0 := rfl
    have hn : Initrd.Stacked 1 (twoFiles.call (.openFile pathA)).2.world :=
      h0.openFile (by decide) hlookup
    refine ⟨by rw [hn.openFiles]; decide, fun d hd => ?_⟩
    have hlt := (hn.openFiles d).mp hd
    rw [hn.toInt hd, show (0 : BitVec 32).toInt = 0 from rfl]
    omega

theorem run_freshOpen_iff_twoFiles :
    ∃ st, Run (Steps VFS.step) twoFiles [.openFile pathA, .close 0] st ∧
      ∀ past rest mid, [VfsCall.openFile pathA, .close 0] = past ++ rest →
        Run (Steps VFS.step) twoFiles past mid → mid.FreshOpen := by
  have hrun : Run (Steps VFS.step) (VFS.mounted [0x2f] _) _ _ := twoFiles_open_close_orderly.unguard
  exact ⟨_, hrun, (run_freshOpen_iff hrun).mpr (.inr twoFiles_open_close_orderly)⟩

/-- After the first of two opened files is closed, the next open returns the
descriptor of the second, which is still open. -/
theorem twoFiles_not_freshOpen :
    ∃ st, Run (Steps VFS.step) twoFiles [.openFile pathA, .openFile pathB, .close 0] st ∧
      st.Opens pathA ∧ (st.openFile pathA).1 = 1 ∧ st.world.openFiles.get 1 = some 1 ∧
      (st.openFile pathA).2.world.openFiles.get 1 = some 0 ∧ ¬st.FreshOpen := by
  obtain ⟨st, hst⟩ : ∃ st,
    [VfsCall.openFile pathA, .openFile pathB, .close 0].foldlM VFS.step twoFiles = some st :=
    ⟨_, rfl⟩
  have hopens : st.Opens pathA := by
    obtain rfl := Option.some.inj hst
    exact ⟨_, rfl, rfl⟩
  have hfd : (st.openFile pathA).1 = 1 := by
    obtain rfl := Option.some.inj hst
    rfl
  have hget : st.world.openFiles.get 1 = some 1 := by
    obtain rfl := Option.some.inj hst
    rfl
  refine ⟨st, run_steps_iff.mpr hst, hopens, hfd, hget, ?_, fun hfresh => ?_⟩
  · obtain rfl := Option.some.inj hst
    rfl
  · have hnone := (hfresh pathA hopens).2
    rw [hfd, hget] at hnone
    exact absurd hnone (by simp)

end VFS

end LimineOS
