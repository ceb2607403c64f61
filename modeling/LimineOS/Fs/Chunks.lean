import LimineOS.Fs.ReadBounds

/-!
# Reading a file in chunks

A descriptor that was just opened stands at the start of its file, and a read
that fits moves it by what it returns. So reads in a row return the file's
bytes in a row, however the file is cut into chunks.
-/

namespace LimineOS

open ByteMemory

section
variable {mem : Mem} {a m n : Nat}

@[simp] theorem length_copyBytes : (copyBytes mem a n).length = n := by simp [copyBytes]

theorem copyBytes_append : copyBytes mem a m ++ copyBytes mem (a + m) n = copyBytes mem a (m + n) := by
  rw [copyBytes, copyBytes, copyBytes, List.range_add, List.map_append, List.map_map]
  simp only [Function.comp_def, Nat.add_assoc]

theorem take_copyBytes (h : m ≤ n) : (copyBytes mem a n).take m = copyBytes mem a m := by
  rw [← Nat.add_sub_cancel' h, ← copyBytes_append]
  exact List.take_left' length_copyBytes

end

/-- The bytes that a file has in the image, from the address on that its entry
names. Addresses have 64 bits. -/
def Initrd.contents (s : Initrd) (info : FileInfo) : List Byte :=
  (List.range info.size.toNat).map fun i => s.mem ((info.data + i) % 2 ^ 64)

theorem Initrd.copyBytes_contents (s : Initrd) (info : FileInfo) :
    copyBytes s.mem info.data info.size.toNat = s.contents info := rfl

@[simp] theorem Initrd.length_contents (s : Initrd) (info : FileInfo) :
    (s.contents info).length = info.size.toNat := by
  simp [contents]

namespace VFS

def readChunks {σ : Type} (st : VFS σ) (fd : BitVec 32) :
    List (BitVec 64) → List (BitVec 64 × Option Copy) × VFS σ
  | [] => ([], st)
  | n :: ns =>
    let (r, st) := st.read fd n
    let (rs, st) := readChunks st fd ns
    (r :: rs, st)

theorem readChunks_cons {σ : Type} (st : VFS σ) (fd : BitVec 32) (n : BitVec 64)
    (ns : List (BitVec 64)) :
    st.readChunks fd (n :: ns) =
      ((st.read fd n).1 :: ((st.read fd n).2.readChunks fd ns).1,
        ((st.read fd n).2.readChunks fd ns).2) := rfl

def buffers (rs : List (BitVec 64 × Option Copy)) : List Byte :=
  rs.flatMap fun r => (r.2.map Copy.bytes).getD []

def total (ns : List (BitVec 64)) : Nat := (ns.map BitVec.toNat).sum

structure Serves (st : VFS Initrd) (fd : BitVec 32) (i : Nat) (info : FileInfo) : Prop where
  filesystem : ∃ mp, st.filesystem fd = some (initrdFilesystem mp)
  info : st.world.info fd = some (i, info)

section
variable {mp : List Byte} {st : VFS Initrd} {path : CStr} {fd : BitVec 32} {i j : Nat} {info : FileInfo}
  {count : BitVec 64}

theorem Serves.setPos (h : st.Serves fd i info) (pos : BitVec 64) :
    Serves { st with world := st.world.setPos i pos } fd i { info with curPos := pos } := by
  refine ⟨h.filesystem, ?_⟩
  show (st.world.setPos i pos).info fd = _
  rw [Initrd.info_setPos, h.info, Option.map_some, if_pos rfl]

theorem openFile_serves (hr : st.resolve path = some (initrdFilesystem mp, j))
    (hi : st.world.lookup (path.skip mp.length) = some i) (hinfo : st.world.files[i]? = some info) :
    (st.openFile path).2.Serves (st.openFile path).1 i { info with curPos := 0 } ∧
      (st.openFile path).2.world.mem = st.world.mem := by
  have hopen : (initrdFilesystem mp).openFile st.world
      (path.skip (initrdFilesystem mp).mountpoint.length) = _ :=
    Initrd.openFile_of_lookup hi
  simp only [VFS.openFile, hr, hopen]
  refine ⟨⟨⟨mp, ?_⟩, ?_⟩, rfl⟩
  · rw [VFS.filesystem]
    dsimp only
    rw [UnorderedMap.get_put, if_pos rfl]
    exact resolve_some hr
  · rw [Initrd.info_eq]
    dsimp only
    rw [UnorderedMap.get_put, if_pos rfl, Option.bind_some]
    show Option.map _ (st.world.setPos i 0).files[i]? = _
    rw [Initrd.setPos_files, hinfo, Option.map_some, Option.map_some, if_pos rfl]

theorem Serves.read_eq (h : st.Serves fd i info) (hdata : info.data ≠ 0)
    (hfit : info.curPos.toNat + count.toNat ≤ info.size.toNat) :
    st.read fd count =
      ((count, some ⟨info.curPos, count,
          copyBytes st.world.mem (info.data + info.curPos.toNat) count.toNat⟩),
        { st with world := st.world.setPos i (info.curPos + count) }) := by
  obtain ⟨mp, hfs⟩ := h.filesystem
  have hpass : (count + info.curPos).toNat ≤ info.size.toNat := Initrd.pass_iff.mpr (.inl (by omega))
  have hsize : (info.size.setWidth 64).toNat = info.size.toNat := by
    rw [BitVec.toNat_setWidth]
    exact Nat.mod_eq_of_lt (info.size.isLt.trans (by decide))
  have hread : (initrdFilesystem mp).read st.world fd count =
      ((count, some ⟨info.curPos, count,
          copyBytes st.world.mem (info.data + info.curPos.toNat) count.toNat⟩),
        st.world.setPos i (info.curPos + count)) := by
    show st.world.read fd count = _
    simp only [Initrd.read, h.info]
    rw [if_neg (by rw [gt_iff_lt, BitVec.lt_def, hsize]; omega), if_neg hdata]
  simp only [VFS.read, hfs, hread]

theorem Serves.read_past (h : st.Serves fd i info)
    (hpast : info.size.toNat < info.curPos.toNat + count.toNat)
    (hwrap : info.curPos.toNat + count.toNat < 2 ^ 64) : st.read fd count = ((-1, none), st) := by
  obtain ⟨mp, hfs⟩ := h.filesystem
  have hsize : (info.size.setWidth 64).toNat = info.size.toNat := by
    rw [BitVec.toNat_setWidth]
    exact Nat.mod_eq_of_lt (info.size.isLt.trans (by decide))
  have hread : (initrdFilesystem mp).read st.world fd count = ((-1, none), st.world) := by
    show st.world.read fd count = _
    simp only [Initrd.read, h.info]
    rw [if_pos]
    rw [gt_iff_lt, BitVec.lt_def, hsize, BitVec.toNat_add]
    omega
  simp only [VFS.read, hfs, hread]

theorem Serves.tell_eq (h : st.Serves fd i info) : st.tell fd = (info.curPos, st) := by
  obtain ⟨mp, hfs⟩ := h.filesystem
  have htell : (initrdFilesystem mp).tell st.world fd = (info.curPos, st.world) := by
    show (st.world.tell fd, st.world) = _
    rw [Initrd.tell, h.info]
  simp only [VFS.tell, hfs, htell]

theorem Serves.lseek_eq {offset : BitVec 64} {whence : BitVec 32} (h : st.Serves fd i info) :
    st.lseek fd offset whence = (Initrd.FileInfo.seek info offset whence,
      { st with world := st.world.setPos i (Initrd.FileInfo.seek info offset whence) }) := by
  obtain ⟨mp, hfs⟩ := h.filesystem
  have hseek : (initrdFilesystem mp).lseek st.world fd offset whence =
      (Initrd.FileInfo.seek info offset whence,
        st.world.setPos i (Initrd.FileInfo.seek info offset whence)) := by
    show st.world.lseek fd offset whence = _
    simp only [Initrd.lseek, h.info]
  simp only [VFS.lseek, hfs, hseek]

theorem Serves.size_eq (h : st.Serves fd i info) :
    ((st.lseek fd 0 seekEnd).2.tell fd).1.toNat = info.size.toNat := by
  have hend : Initrd.FileInfo.seek info 0 seekEnd = info.size.setWidth 64 := by
    simp [Initrd.FileInfo.seek, seekEnd, seekSet, seekCur]
  rw [h.lseek_eq, (h.setPos _).tell_eq, hend, BitVec.toNat_setWidth]
  exact Nat.mod_eq_of_lt (info.size.isLt.trans (by decide))

theorem Serves.readChunks_eq (h : st.Serves fd i info) (ns : List (BitVec 64)) (hdata : info.data ≠ 0)
    (hfit : info.curPos.toNat + total ns ≤ info.size.toNat) :
    ∃ info', (st.readChunks fd ns).2.Serves fd i info' ∧ info'.size = info.size ∧
      info'.curPos.toNat = info.curPos.toNat + total ns ∧
      (st.readChunks fd ns).1.map Prod.fst = ns ∧
      buffers (st.readChunks fd ns).1 = copyBytes st.world.mem (info.data + info.curPos.toNat)
        (total ns) := by
  induction ns generalizing st info with
  | nil => exact ⟨info, h, rfl, rfl, rfl, rfl⟩
  | cons n ns ih =>
    have htotal : total (n :: ns) = n.toNat + total ns := by simp [total]
    have hsize := info.size.isLt
    rw [htotal] at hfit ⊢
    have hpos : (info.curPos + n).toNat = info.curPos.toNat + n.toNat := by
      rw [BitVec.toNat_add, Nat.mod_eq_of_lt (by omega)]
    have hrest : (info.curPos + n).toNat + total ns ≤ info.size.toNat := by omega
    obtain ⟨info', hserves, hsame, hend, hreturns, hbytes⟩ :=
      ih (h.setPos (info.curPos + n)) hdata hrest
    rw [readChunks_cons, h.read_eq hdata (by omega)]
    refine ⟨info', hserves, hsame, ?_, ?_, ?_⟩
    · rw [hend, hpos, Nat.add_assoc]
    · rw [List.map_cons, hreturns]
    · rw [buffers, List.flatMap_cons]
      refine (congrArg (_ ++ ·) hbytes).trans ?_
      show copyBytes st.world.mem (info.data + info.curPos.toNat) n.toNat ++
        copyBytes st.world.mem (info.data + (info.curPos + n).toNat) (total ns) = _
      rw [hpos, ← Nat.add_assoc, copyBytes_append]

end

/-- What reads in a row give through a descriptor of a file with these contents. -/
structure ReadsInOrder (st : VFS Initrd) (fd : BitVec 32) (contents : List Byte)
    (ns : List (BitVec 64)) : Prop where
  returns : (st.readChunks fd ns).1.map Prod.fst = ns
  bytes : buffers (st.readChunks fd ns).1 = contents.take (total ns)
  position : ((st.readChunks fd ns).2.tell fd).1.toNat = total ns
  past : ∀ count : BitVec 64, contents.length < total ns + count.toNat → count.toNat < 2 ^ 63 →
    (st.readChunks fd ns).2.read fd count = ((-1, none), (st.readChunks fd ns).2)
  size : (((st.readChunks fd ns).2.lseek fd 0 seekEnd).2.tell fd).1.toNat = contents.length

/-- However a file is cut into chunks, reading them gives its bytes in order. -/
theorem openFile_readsInOrder {mp : List Byte} {st : VFS Initrd} {path : CStr} {i j : Nat}
    {info : FileInfo}
    {ns : List (BitVec 64)} (hr : st.resolve path = some (initrdFilesystem mp, j))
    (hi : st.world.lookup (path.skip mp.length) = some i) (hinfo : st.world.files[i]? = some info)
    (hdata : info.data ≠ 0) (hsum : total ns ≤ info.size.toNat) :
    (st.openFile path).2.ReadsInOrder (st.openFile path).1 (st.world.contents info) ns := by
  obtain ⟨hserves, hmem⟩ := openFile_serves hr hi hinfo
  have hzero : (0 : BitVec 64).toNat = 0 := rfl
  obtain ⟨info', hserves', hsame, hend, hreturns, hbytes⟩ := hserves.readChunks_eq ns hdata (by
    rw [hzero, Nat.zero_add]
    exact hsum)
  rw [hzero, Nat.zero_add] at hend
  have hlength : (st.world.contents info).length = info'.size.toNat := by
    rw [Initrd.length_contents, hsame]
  have hsize := info'.size.isLt
  refine ⟨hreturns, ?_, ?_, fun count hpast hcount => ?_, ?_⟩
  · rw [hbytes, hmem, ← Initrd.copyBytes_contents, take_copyBytes hsum]
    rfl
  · rw [hserves'.tell_eq, hend]
  · rw [hlength] at hpast
    have hle : total ns ≤ info'.size.toNat := by rw [hsame]; exact hsum
    exact hserves'.read_past (by omega) (by omega)
  · rw [hserves'.size_eq, hlength]

theorem openFile_readsInOrder_twoFiles :
    (twoFiles.openFile pathA).2.ReadsInOrder (twoFiles.openFile pathA).1
      (twoFiles.world.contents { data := 4096, size := 8, name := cstr [0x61] }) [3, 0, 5] :=
  openFile_readsInOrder (show twoFiles.resolve pathA = some (initrdFilesystem [0x2f], 0) from rfl)
    (show twoFiles.world.lookup (pathA.skip 1) = some 0 from rfl) rfl (by decide) (by decide)

end VFS

end LimineOS
