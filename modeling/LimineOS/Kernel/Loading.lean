import LimineOS.Fs.ElfImage
import LimineOS.Fs.ElfMappings
import LimineOS.Fs.ElfReads
import LimineOS.Mm.HeapRuns

/-!
# Loading through the heap

`LoadAndExecuteElf` on top of the kernel's heap. A load reads the
file into a buffer in RAM and goes back to the headers there, while it takes pages
and fills segments. As long as the file lies inside its buffer and each segment in
its block, that is a load with a buffer of its own and any `new` that only takes
pages (`HeapKernel.LoadEnds.refines`), and it comes to an end unless
memory runs out (`HeapKernel.load_returns_iff`). As everywhere, addresses of RAM are physical.
-/

namespace LimineOS

open ByteMemory Fueled PhysicalMemory Transition VirtualMemory

open BoundaryTag (sizeof)

structure HeapKernel where
  vfs : VFS Initrd
  heap : Heap
  sched : Scheduler
  boot : BootInfo

def HeapKernel.kernel (k : HeapKernel) : Kernel := ⟨k.vfs, k.heap.pmm, k.sched, k.boot⟩

def bufferAt (ram : Mem) (buf : Nat) : Mem := fun i => ram (u64 (buf + i))

def loadPhdrAt (rootTable buf phdr : Nat) (s : PhysicalMemory) : Option PhysicalMemory :=
  if (readPhdr (bufferAt s.ram buf) phdr).Loads then do
    let (segment, s) ← s.alloc (readPhdr (bufferAt s.ram buf) phdr).pages
    let (s, _) ← mapPage s rootTable (readPhdr (bufferAt s.ram buf) phdr).pVaddr
      (BitVec.ofNat 64 segment) Thread.userFlags
    let ph := readPhdr (bufferAt s.ram buf) phdr
    some { s with ram := memcpy s.ram segment (u64 (buf + ph.pOffset)) ph.pFilesz }
  else some s

def loadPhdrsAt (rootTable buf phdrs : Nat) : Nat → Nat → PhysicalMemory → Option PhysicalMemory
  | 0, _, s => some s
  | left + 1, i, s =>
    if i < (readHeader (bufferAt s.ram buf)).ePhnum then do
      let s ← loadPhdrAt rootTable buf (phdrs + i * phdrSize) s
      loadPhdrsAt rootTable buf phdrs left (i + 1) s
    else some s

def receive (ram : Mem) (buf : Nat) (copied : Option Copy) : Mem :=
  copyIn ram buf (bytesMem ((copied.map Copy.bytes).getD [])) 0 ((copied.map Copy.bytes).getD []).length

namespace HeapKernel

def loadAndExecuteElf (k : HeapKernel) (path : CStr) : Fueled (BitVec 32 × HeapKernel) :=
  let (fd, vfs) := k.vfs.openFile path
  if fd.toInt < 0 then pure (-1, { k with vfs })
  else do
    let vfs := (vfs.lseek fd 0 seekEnd).2
    let (size, vfs) := vfs.tell fd
    let vfs := (vfs.lseek fd 0 seekSet).2
    let (buf, heap) ← k.heap.malloc size.toNat
    let ((_, copied), vfs) := vfs.read fd size
    let heap := heap.setRam (receive heap.pmm.ram buf copied)
    let vfs := (vfs.close fd).2
    let hdr := readHeader (bufferAt heap.pmm.ram buf)
    if hdr.eIdent ≠ elfMagic then pure (-1, { k with vfs, heap })
    else do
      let (t, heap) ← heap.malloc threadSize
      let (thread, pmm) ← ofOption
        (Thread.construct k.boot k.sched.getCurCPU.kstackPhys heap.pmm hdr.eEntry true)
      let pmm ← ofOption (loadPhdrsAt thread.rootTable buf hdr.ePhoff maxPhnum 0 pmm)
      let sched := (k.sched.modifyThread t fun _ => thread).addThread t
      pure (0, { k with vfs, heap := { heap with pmm }, sched })

end HeapKernel

theorem HeapKernel.loadAndExecuteElf_eq (k : HeapKernel) (path : CStr) :
    k.loadAndExecuteElf path =
      (if (k.vfs.openFile path).1.toInt < 0 then pure (-1, { k with vfs := (k.vfs.openFile path).2 })
      else k.heap.malloc (k.vfs.fileSize path).toNat >>= fun (buf, heap) =>
        let heap := heap.setRam (receive heap.pmm.ram buf (k.vfs.fileCopy path))
        let hdr := readHeader (bufferAt heap.pmm.ram buf)
        if hdr.eIdent ≠ elfMagic then pure (-1, { k with vfs := k.vfs.fileRead path, heap })
        else heap.malloc threadSize >>= fun (t, heap) =>
          ofOption (Thread.construct k.boot k.sched.getCurCPU.kstackPhys heap.pmm hdr.eEntry true)
            >>= fun (thread, pmm) =>
            ofOption (loadPhdrsAt thread.rootTable buf hdr.ePhoff maxPhnum 0 pmm) >>= fun pmm =>
              pure (0, { k with
                vfs := k.vfs.fileRead path
                heap := { heap with pmm }
                sched := (k.sched.modifyThread t fun _ => thread).addThread t }) :
                  Fueled (BitVec 32 × HeapKernel)) :=
  rfl

-- ---------------------------------------------------------------------------
-- A file that stays as it is
-- ---------------------------------------------------------------------------

def VFS.file (vfs : VFS Initrd) (path : CStr) : Mem :=
  bytesMem (((vfs.fileCopy path).map Copy.bytes).getD [])

def Elf64Phdr.turnIn (file : Mem) (ph : Elf64Phdr) : Turn := { ph with source := file }

section
variable {own : Set Nat} {root buf size a n : Nat} {used used' : List Nat} {s s' : PhysicalMemory}
  {file ram : Mem}
  {turns : List Turn} {vfs : VFS Initrd} {path : CStr} {around : Nat → Mem}

theorem copyIn_congr {dest src : Nat} {source : Mem} (h : Set.EqOn source file (span src n)) :
    copyIn ram dest source src n = copyIn ram dest file src n := by
  funext x
  rw [copyIn_apply, copyIn_apply]
  refine if_ctx_congr Iff.rfl (fun hx => h ⟨by omega, by omega⟩) fun _ => rfl

theorem loadPhdr_turnIn {turn : Turn}
    (h : turn.Loads → Set.EqOn turn.source file (span turn.pOffset turn.pFilesz)) :
    loadPhdr root s turn = loadPhdr root s (turn.turnIn file) := by
  rw [loadPhdr, loadPhdr]
  refine if_ctx_congr Iff.rfl (fun hl => ?_) fun _ => rfl
  refine Option.bind_congr fun r _ => Option.bind_congr ?_
  rintro ⟨s₂, new⟩ -
  simp only [copyIn_congr (h hl)]
  rfl

theorem loadPhdrs_turnIn
    (h : ∀ turn ∈ turns, turn.Loads → Set.EqOn turn.source file (span turn.pOffset turn.pFilesz)) :
    turns.foldlM (loadPhdr root) s =
      ((turns.map Turn.toElf64Phdr).map (Elf64Phdr.turnIn file)).foldlM (loadPhdr root) s := by
  induction turns generalizing s with
  | nil => rfl
  | cons turn turns ih =>
    rw [List.map_cons, List.map_cons, List.foldlM_cons, List.foldlM_cons,
      loadPhdr_turnIn (h turn List.mem_cons_self)]
    exact Option.bind_congr fun s₁ _ => ih fun turn' h' => h turn' (List.mem_cons_of_mem _ h')

theorem map_turnIn (phs : List Elf64Phdr) :
    (phs.map (Elf64Phdr.turnIn file)).map Turn.toElf64Phdr = phs := by
  rw [List.map_map]
  exact List.map_id phs

/-- In a file that lies inside its buffer the loop sees the file and nothing else. -/
theorem LiesInside.loadTurns_eq (h : LiesInside (vfs.file path) (vfs.fileSize path).toNat)
    (hcopied : ∃ c, vfs.fileCopy path = some c ∧ c.bytes.length = (vfs.fileSize path).toNat) :
    (vfs.turns around path).foldlM (loadPhdr root) s =
      ((readPhdrs (vfs.file path) (readHeader (vfs.file path))).map
        (Elf64Phdr.turnIn (vfs.file path))).foldlM
        (loadPhdr root) s := by
  obtain ⟨c, hc, hlen⟩ := hcopied
  have hfile : vfs.file path = bytesMem c.bytes := by rw [VFS.file, hc]; rfl
  have hsize : c.bytes.length ≤ 2 ^ 64 := hlen ▸ (vfs.fileSize path).isLt.le
  have hsame : ∀ j, Set.EqOn (vfs.fileLooks around path j) (bytesMem c.bytes) (span 0 c.bytes.length) :=
    VFS.fileLooks_eqOn (congrArg (Option.map Copy.bytes) hc) hsize
  rw [hfile, ← hlen] at h
  have hturns := turnsOf_phdrs hsame h.header h.table
  rw [hfile, ← hturns]
  refine loadPhdrs_turnIn fun turn hturn hl => ?_
  obtain ⟨j, hj⟩ := turnsFrom_source hturn
  have hmem : turn.toElf64Phdr ∈ readPhdrs (bytesMem c.bytes) (readHeader (bytesMem c.bytes)) :=
    hturns ▸ List.mem_map_of_mem hturn
  rw [hj]
  intro x hx
  have hin := h.contents _ hmem hl.1
  rw [mem_span] at hx
  exact hsame j ⟨Nat.zero_le x, by omega⟩

-- ---------------------------------------------------------------------------
-- The buffer
-- ---------------------------------------------------------------------------

structure Buffered (own : Set Nat) (used : List Nat) (file : Mem) (buf size : Nat)
    (s : PhysicalMemory) : Prop where
  inSpace : ∀ x ∈ span buf size, x < 2 ^ 64
  held : ∀ x ∈ span buf size, s.Held x
  outside : ∀ x ∈ span buf size, x ∉ own
  apart : ∀ x ∈ span buf size, x ∉ tables used
  bytes : ∀ i < size, s.ram (buf + i) = file i

theorem Buffered.grow {W : Set Nat} (h : Buffered own used file buf size s) (hg : Grow own W s s')
    (hW : ∀ x ∈ span buf size, x ∉ W) (hused : ∀ x ∈ span buf size, x ∉ tables used') :
    Buffered own used' file buf size s' where
  inSpace := h.inSpace
  held x hx := hg.held x (h.held x hx)
  outside := h.outside
  apart := hused
  bytes i hi := by
    have hmem : buf + i ∈ span buf size := ⟨by omega, by omega⟩
    exact (hg.ram _ (h.held _ hmem) (h.outside _ hmem) (hW _ hmem)).trans (h.bytes i hi)

theorem Buffered.extended (h : Buffered own used file buf size s)
    (he : Extended own root used s used' s') :
    Buffered own used' file buf size s' :=
  h.grow he.grow h.apart fun x hx hx' => h.apart x hx (he.old x hx' (h.held x hx))

theorem Buffered.eqOn (h : Buffered own used file buf size s) :
    Set.EqOn (bufferAt s.ram buf) file (span 0 size) := by
  intro i hi
  have hlt := hi.2
  have hmem := h.inSpace (buf + i) ⟨by omega, by omega⟩
  rw [bufferAt, u64_of_lt hmem, h.bytes i (by omega)]

theorem Buffered.header (h : Buffered own used file buf size s) (hle : 64 ≤ size) :
    readHeader (bufferAt s.ram buf) = readHeader file :=
  readHeader_congr (h.eqOn.mono (span_subset (Nat.zero_le _) (by omega)))

theorem Buffered.ident (h : Buffered own used file buf size s) (hle : 4 ≤ size) :
    (readHeader (bufferAt s.ram buf)).eIdent = (readHeader file).eIdent := by
  have hbyte : ∀ i < 4, bufferAt s.ram buf i = file i := fun i hi => h.eqOn ⟨Nat.zero_le _, by omega⟩
  simp only [readHeader, hbyte 0 (by omega), hbyte 1 (by omega), hbyte 2 (by omega), hbyte 3 (by omega)]

theorem Buffered.phdr (h : Buffered own used file buf size s) (hle : a + phdrSize ≤ size) :
    readPhdr (bufferAt s.ram buf) a = readPhdr file a :=
  readPhdr_congr (h.eqOn.mono (span_subset (Nat.zero_le _) (by omega)))

-- ---------------------------------------------------------------------------
-- The loop over the headers
-- ---------------------------------------------------------------------------

theorem Buffered.copy {dest src : Nat} (h : Buffered own used file buf size s)
    (hsrc : n = 0 ∨ src + n ≤ size)
    (hapart : Disjoint (span dest n) (span buf size)) :
    memcpy s.ram dest (u64 (buf + src)) n = copyIn s.ram dest file src n := by
  rcases Nat.eq_zero_or_pos n with rfl | hpos
  · rfl
  have hle := hsrc.resolve_left (Nat.ne_of_gt hpos)
  have hsep : dest ≤ buf + src ∨ buf + src + n ≤ dest := by
    by_contra hno
    have hboth : dest ∈ span dest n → dest ∉ span buf size := fun hx => Set.disjoint_left.mp hapart hx
    exact hboth ⟨le_refl _, by omega⟩ ⟨by omega, by omega⟩
  rw [u64_of_lt (h.inSpace _ ⟨by omega, by omega⟩)]
  funext x
  rw [memcpy_apply _ hsep, copyIn_apply]
  refine if_ctx_congr Iff.rfl (fun hx => ?_) fun _ => rfl
  rw [Nat.add_assoc]
  exact h.bytes _ (by omega)

theorem Buffered.loadPhdrAt_eq (h : Buffered own used file buf size s) (hs : Space own root used s)
    (htable : a + phdrSize ≤ size)
    (hcontents : (readPhdr file a).Loads →
      (readPhdr file a).pFilesz = 0 ∨ (readPhdr file a).pOffset + (readPhdr file a).pFilesz ≤ size)
    (hfit : (readPhdr file a).Fits) :
    loadPhdrAt root buf a s = loadPhdr root s ((readPhdr file a).turnIn file) := by
  rw [loadPhdrAt, loadPhdr, h.phdr htable]
  refine if_ctx_congr Iff.rfl (fun hl => ?_) fun _ => rfl
  refine Option.bind_congr ?_
  rintro ⟨f, s₁⟩ halloc
  have hal := hs.sane.alloc (readPhdr file a).pages_pos halloc
  obtain ⟨hext₁, -⟩ := hs.took hal.sane hal.grow
  have h₁ := h.extended hext₁
  simp only [h₁.phdr htable]
  refine Option.bind_congr ?_
  rintro ⟨s₂, new⟩ hmap
  obtain ⟨hext₂, -⟩ := hext₁.space.mapPage (by decide) hmap
  have h₂ := h₁.extended hext₂
  have hapart : Disjoint (span f (readPhdr file a).pFilesz) (span buf size) :=
    Set.disjoint_left.mpr fun x hx hx' =>
    (h.held x hx').not_free (hal.free x (span_subset (le_refl _) (Nat.add_le_add_left (hfit hl) f) hx))
  simp only [h₂.phdr htable, h₂.copy (hcontents hl) hapart]
  rfl

theorem LiesInside.phdr {j : Nat} (h : LiesInside file size) (hj : j < (readHeader file).ePhnum) :
    (readHeader file).ePhoff + j * phdrSize + phdrSize ≤ size := by
  have htable := h.table.resolve_left (Nat.ne_zero_of_lt hj)
  have hle := Nat.mul_le_mul_right phdrSize (Nat.succ_le_of_lt hj)
  rw [Nat.succ_mul] at hle
  omega

theorem mem_readPhdrs {j : Nat} (hj : j < (readHeader file).ePhnum) :
    readPhdr file ((readHeader file).ePhoff + j * phdrSize) ∈ readPhdrs file (readHeader file) :=
  List.mem_map.mpr ⟨j, List.mem_range.mpr hj, rfl⟩

theorem Buffered.loadPhdrsAt_from {left i : Nat} (h : Buffered own used file buf size s)
    (hs : Space own root used s)
    (hin : LiesInside file size) (hfit : ∀ ph ∈ readPhdrs file (readHeader file), ph.Fits)
    (hle : (readHeader file).ePhnum ≤ i + left) :
    loadPhdrsAt root buf (readHeader file).ePhoff left i s =
      ((List.range' i ((readHeader file).ePhnum - i)).map fun j =>
        (readPhdr file ((readHeader file).ePhoff + j * phdrSize)).turnIn file).foldlM
          (loadPhdr root) s := by
  induction left generalizing i s used with
  | zero =>
    have hnone : (readHeader file).ePhnum - i = 0 := by omega
    rw [hnone]
    rfl
  | succ left ih =>
    rw [loadPhdrsAt, h.header hin.header]
    by_cases hi : i < (readHeader file).ePhnum
    · have hrest : (readHeader file).ePhnum - i = ((readHeader file).ePhnum - (i + 1)) + 1 := by omega
      have hmem := mem_readPhdrs hi
      rw [if_pos hi, hrest, List.range'_succ, List.map_cons, List.foldlM_cons,
        h.loadPhdrAt_eq hs (hin.phdr hi) (fun hl => hin.contents _ hmem hl.1) (hfit _ hmem)]
      refine Option.bind_congr fun s₁ hload => ?_
      have hone : [(readPhdr file ((readHeader file).ePhoff + i * phdrSize)).turnIn file].foldlM
          (loadPhdr root) s =
          some s₁ := by
        rw [List.foldlM_cons, hload]
        rfl
      obtain ⟨used₁, hext, -, -⟩ := loadPhdrs_ok hs (List.forall_mem_singleton.mpr (hfit _ hmem)) hone
      exact ih (h.extended hext) hext.space (by omega)
    · have hnone : (readHeader file).ePhnum - i = 0 := by omega
      rw [if_neg hi, hnone]
      rfl

theorem Buffered.loadPhdrsAt_eq (h : Buffered own used file buf size s) (hs : Space own root used s)
    (hin : LiesInside file size) (hfit : ∀ ph ∈ readPhdrs file (readHeader file), ph.Fits) :
    loadPhdrsAt root buf (readHeader file).ePhoff maxPhnum 0 s =
      ((readPhdrs file (readHeader file)).map (Elf64Phdr.turnIn file)).foldlM (loadPhdr root) s := by
  have hnum : (readHeader file).ePhnum < 256 ^ 2 := readLE_lt ..
  have hmax : maxPhnum = 256 ^ 2 := rfl
  rw [h.loadPhdrsAt_from hs hin hfit (by omega), Nat.sub_zero, ← List.range_eq_range', readPhdrs,
    List.map_map]
  rfl

section
variable {boot : BootInfo} {kstackPhys : Nat} {entryPoint : BitVec 64} {thread : Thread}

theorem Buffered.segments_eq (h : Buffered own [] file buf size s) (hs : Sane own s)
    (hcons : Thread.construct boot kstackPhys s entryPoint true = some (thread, s'))
    (hin : LiesInside file size)
    (hfit : ∀ ph ∈ readPhdrs file (readHeader file), ph.Fits) :
    loadPhdrsAt thread.rootTable buf (readHeader file).ePhoff maxPhnum 0 s' =
      ((readPhdrs file (readHeader file)).map (Elf64Phdr.turnIn file)).foldlM
        (loadPhdr thread.rootTable) s' := by
  obtain ⟨-, used, stackAddr, hconstructed⟩ := Thread.construct_ok hs hcons
  have hbuf := h.grow hconstructed.grow (fun x _ => Set.notMem_empty x) fun x hx hx' =>
    (h.held x hx).not_free (hconstructed.tables x hx')
  exact hbuf.loadPhdrsAt_eq hconstructed.space hin hfit

/-- The pages decide whether the thread gets its space and the segments their blocks. -/
theorem Buffered.space_isSome_iff (h : Buffered own [] file buf size s) (hs : Sane own s)
    (hin : LiesInside file size)
    (hfit : ∀ ph ∈ readPhdrs file (readHeader file), ph.Fits) :
    ((Thread.construct boot kstackPhys s entryPoint true).bind fun r =>
      loadPhdrsAt r.1.rootTable buf (readHeader file).ePhoff maxPhnum 0 r.2).isSome ↔
        (s.allocs (loadRequests boot s.mmap (readPhdrs file (readHeader file)))).isSome := by
  have hask := @space_asks own s ((readPhdrs file (readHeader file)).map (Elf64Phdr.turnIn file))
    boot kstackPhys entryPoint
    hs (List.forall_mem_map.mpr hfit)
  rw [map_turnIn] at hask
  rw [← hask.isSome_iff]
  refine Eq.to_iff (congrArg (fun o => Option.isSome o = true) (Option.bind_congr ?_))
  rintro ⟨thread, s'⟩ hcons
  exact h.segments_eq hs hcons hin hfit

end

end

-- ---------------------------------------------------------------------------
-- Objects of the heap
-- ---------------------------------------------------------------------------

namespace Heap

section
variable {own : Set Nat} {s s' : Heap} {R R' : List Region} {L L' : Nat → List Nat}
  {O : ObjectStore} {size t buf x : Nat}
  {c : Copy} {bs : List Byte} {file ram : Mem}

theorem receive_apply : receive ram buf (some c) x =
    if buf ≤ x ∧ x < buf + c.bytes.length then c.bytes.getD (x - buf) 0 else ram x := by
  rw [receive, copyIn_apply, Nat.zero_add]
  rfl

theorem Malloced.old (h : Malloced own s R size t s' R' L') (hx : x ∈ territory R')
    (hheld : s.pmm.Held x) : x ∈ territory R := by
  by_contra hnot
  exact (h.spares.outside x hheld (h.wf.held x hx).2 hnot).2.1 hx

theorem Keeps.receive (h : Keeps own s R L O) (hm : Malloced own s R size t s' R' L')
    (hlen : c.bytes.length = size) :
    Keeps own (s'.setRam (receive s'.pmm.ram (t + sizeof) (some c))) R' L'
      (O.put (t + sizeof) c.bytes) ∧
      Grow own (territory R) s.pmm (s'.setRam (receive s'.pmm.ram (t + sizeof) (some c))).pmm := by
  have hnew := h.malloc hm
  have hout : ∀ x ∉ span (t + sizeof) c.bytes.length,
      LimineOS.receive s'.pmm.ram (t + sizeof) (some c) x = s'.pmm.ram x :=
    fun x hx => receive_apply.trans (if_neg fun hin => hx (mem_span.mpr hin))
  have hsub := hnew.object_subset (ObjectStore.objects_put_self ..)
  rw [length_loadBytes, ← hlen] at hsub
  obtain ⟨-, hgrow⟩ :=
    hm.wf.sane.write hout (fun x hx => (hm.wf.held x (hsub hx)).1) fun x hx =>
      (hm.wf.held x (hsub hx)).2
  refine ⟨?_, hm.grow.trans hgrow fun x hx hheld => hm.old (hsub hx) hheld⟩
  rw [← ObjectStore.put_put]
  refine hnew.write (ObjectStore.objects_put_self ..) (by rw [length_loadBytes, hlen]) hout
    fun i b hb => ?_
  obtain ⟨hi, rfl⟩ := List.getElem?_eq_some_iff.mp hb
  rw [receive_apply, if_pos (by omega), Nat.add_sub_cancel_left, List.getD_eq_getElem?_getD,
    List.getElem?_eq_getElem hi, Option.getD_some]

theorem Keeps.buffered (h : Keeps own s R L O) (hp : O.objects buf = some bs) :
    Buffered own [] (bytesMem bs) buf bs.length s.pmm := by
  have hin : ∀ x ∈ span buf bs.length, s.pmm.Held x ∧ x ∉ own :=
    fun x hx => h.wf.held x (h.object_subset hp hx)
  refine ⟨fun x hx => ?_, fun x hx => (hin x hx).1,
    fun x hx => (hin x hx).2, fun x _ => ?_, fun i hi => ?_⟩
  · obtain ⟨r, hr, hmem⟩ := h.object_subset hp hx
    have hspace := (h.wf.tiled.ok r hr).inSpace
    have hlt := hmem.2
    omega
  · rintro ⟨f, hf, -⟩
    exact absurd hf List.not_mem_nil
  · obtain ⟨t, -, rfl, ho⟩ := h.objects buf bs hp
    exact ho.stored.apply hi

theorem Keeps.buffered_malloc {n : Nat} (h : Keeps own s R L O) (hm : Malloced own s R n t s' R' L')
    (hp : O.objects buf = some bs) : Buffered own [] (bytesMem bs) buf bs.length s'.pmm :=
  (h.malloc hm).buffered ((ObjectStore.objects_put_of_ne ((h.vacant hm).ne hp)).trans hp)

end

end Heap

-- ---------------------------------------------------------------------------
-- Loads
-- ---------------------------------------------------------------------------

open Heap (Region Keeps territory)

/-- What keeps a load inside its buffer and its blocks: the file is delivered whole, and if it
is an executable, then its headers and segments lie in it and no copy is longer than its block. -/
structure Loadable (vfs : VFS Initrd) (path : CStr) : Prop where
  room : (vfs.fileSize path).toNat + sizeof + pageSize ≤ 2 ^ 32
  copied : ∃ c, vfs.fileCopy path = some c ∧ c.bytes.length = (vfs.fileSize path).toNat
  ident : 4 ≤ (vfs.fileSize path).toNat
  inside : (readHeader (vfs.file path)).eIdent = elfMagic →
    LiesInside (vfs.file path) (vfs.fileSize path).toNat
  fits : (readHeader (vfs.file path)).eIdent = elfMagic →
    ∀ ph ∈ readPhdrs (vfs.file path) (readHeader (vfs.file path)), ph.Fits

/-- A load that returns -1 leaves at most the buffer in the heap. -/
inductive NotLoaded (own : Set Nat) (k : HeapKernel) (R : List Region) (O : ObjectStore)
    (path : CStr) : HeapKernel → Prop
  | noFile : (k.vfs.openFile path).1.toInt < 0 →
      NotLoaded own k R O path { k with vfs := (k.vfs.openFile path).2 }
  | noElf {buf : Nat} {bs : List Byte} {heap : Heap} {R' : List Region} {L' : Nat → List Nat} :
    ¬(k.vfs.openFile path).1.toInt < 0 → (readHeader (k.vfs.file path)).eIdent ≠ elfMagic →
      O.Vacant buf bs.length → Keeps own heap R' L' (O.put buf bs) →
      Grow own (territory R) k.heap.pmm heap.pmm →
      NotLoaded own k R O path { k with vfs := k.vfs.fileRead path, heap }

/-- A load that returns 0, with the heap as it is when the loader comes to the constructor, and
the page allocator after the constructor and after the loop. -/
structure HeapLoaded (own : Set Nat) (k : HeapKernel) (R : List Region) (O : ObjectStore)
    (path : CStr) (bs : List Byte)
    (buf : Nat) (t : ThreadPtr) (thread : Thread) (heap : Heap) (s₃ s₄ : PhysicalMemory) : Prop where
  opened : ¬(k.vfs.openFile path).1.toInt < 0
  magic : (readHeader (k.vfs.file path)).eIdent = elfMagic
  buffer : O.Vacant buf bs.length
  object : (O.put buf bs).Vacant t threadSize
  keeps : ∃ object R' L', object.length = threadSize ∧
    Keeps own heap R' L' ((O.put buf bs).put t object)
  grow : Grow own (territory R) k.heap.pmm heap.pmm
  construct : Thread.construct k.boot k.sched.getCurCPU.kstackPhys heap.pmm
    (readHeader (k.vfs.file path)).eEntry true =
    some (thread, s₃)
  segments :
    ((readPhdrs (k.vfs.file path) (readHeader (k.vfs.file path))).map
      (Elf64Phdr.turnIn (k.vfs.file path))).foldlM
    (loadPhdr thread.rootTable) s₃ = some s₄

def HeapKernel.loaded (k : HeapKernel) (path : CStr) (t : ThreadPtr) (thread : Thread) (heap : Heap)
    (pmm : PhysicalMemory) :
    HeapKernel where
  vfs := k.vfs.fileRead path
  heap := { heap with pmm }
  sched := (k.sched.modifyThread t fun _ => thread).addThread t
  boot := k.boot

def HeapKernel.LoadEnds (own : Set Nat) (k : HeapKernel) (R : List Region) (O : ObjectStore)
    (path : CStr)
    (r : BitVec 32 × HeapKernel) : Prop :=
  (r.1 = -1 ∧ NotLoaded own k R O path r.2) ∨
    (r.1 = 0 ∧ ∃ bs buf t thread heap s₃ s₄, HeapLoaded own k R O path bs buf t thread heap s₃ s₄ ∧
      r.2 = k.loaded path t thread heap s₄)

section
variable {own : Set Nat} {k k' : HeapKernel} {R : List Region} {L : Nat → List Nat}
  {O : ObjectStore} {path : CStr}
  {vfs : VFS Initrd} {around : Nat → Mem} {j : Nat}

theorem file_eq {c : Copy} (hc : vfs.fileCopy path = some c) : vfs.file path = bytesMem c.bytes := by
  rw [VFS.file, hc]
  rfl

theorem Loadable.ident_eq (h : Loadable vfs path) :
    (readHeader (vfs.fileLooks around path j)).eIdent = (readHeader (vfs.file path)).eIdent := by
  obtain ⟨c, hc, hlen⟩ := h.copied
  rw [file_eq hc]
  exact VFS.ident_eq (congrArg (Option.map Copy.bytes) hc) (hlen ▸ (vfs.fileSize path).isLt.le)
    (hlen ▸ h.ident)

theorem Loadable.header_eq (h : Loadable vfs path)
    (hmagic : (readHeader (vfs.file path)).eIdent = elfMagic) :
    readHeader (vfs.fileLooks around path j) = readHeader (vfs.file path) := by
  obtain ⟨c, hc, hlen⟩ := h.copied
  have hheader := (h.inside hmagic).header
  rw [file_eq hc]
  have hsame : Set.EqOn (vfs.fileLooks around path j) (bytesMem c.bytes) (span 0 c.bytes.length) :=
    VFS.fileLooks_eqOn (congrArg (Option.map Copy.bytes) hc) (hlen ▸ (vfs.fileSize path).isLt.le) j
  exact readHeader_congr (hsame.mono (span_subset (le_refl 0) (by omega)))

theorem HeapKernel.load_safe (h : Keeps own k.heap R L O)
    (hgood : 0 ≤ (k.vfs.openFile path).1.toInt → Loadable k.vfs path) :
    Safe (k.loadAndExecuteElf path) (k.LoadEnds own R O path) := by
  rw [loadAndExecuteElf_eq]
  generalize hmax : maxPhnum = rounds
  split
  · exact safe_pure (.inl ⟨rfl, .noFile ‹_›⟩)
  have hopen := ‹¬(k.vfs.openFile path).1.toInt < 0›
  have hload := hgood (not_lt.mp hopen)
  obtain ⟨c, hc, hlen⟩ := hload.copied
  refine Safe.bind (h.wf.malloc_safe hload.room) ?_
  rintro _ ⟨t₁, s₁, R₁, L₁, rfl, hm₁⟩
  -- the buffer holds the file
  obtain ⟨hk₁, hgrow₁⟩ := h.receive hm₁ hlen
  have hvac₁ := h.vacant hm₁
  rw [← hlen] at hvac₁
  have hbuf₁ := hk₁.buffered (ObjectStore.objects_put_self ..)
  rw [← file_eq hc] at hbuf₁
  rw [hc]
  dsimp only
  rw [hbuf₁.ident (hlen ▸ hload.ident)]
  split
  · exact safe_pure (.inl ⟨rfl, .noElf hopen ‹_› hvac₁ hk₁ hgrow₁⟩)
  have hmagic := not_not.mp ‹_›
  have hinside := hload.inside hmagic
  rw [hbuf₁.header (hlen ▸ hinside.header)]
  -- the thread
  refine Safe.bind (hk₁.wf.malloc_safe (by decide)) ?_
  rintro _ ⟨t₂, s₂, R₂, L₂, rfl, hm₂⟩
  have hk₂ := hk₁.malloc hm₂
  have hvac₂ := hk₁.vacant hm₂
  refine Safe.bind (P := fun r => _ = some r) (fun _ _ hr => hr) ?_
  rintro ⟨thread, s₃⟩ hcons
  refine Safe.bind (P := fun r => _ = some r) (fun _ _ hr => hr) fun s₄ hseg => ?_
  have hbuf₂ := hk₁.buffered_malloc hm₂ (ObjectStore.objects_put_self ..)
  rw [← file_eq hc] at hbuf₂
  rw [← hmax, hbuf₂.segments_eq hk₂.wf.sane hcons (hlen ▸ hinside) (hload.fits hmagic)] at hseg
  exact safe_pure (.inr ⟨rfl, c.bytes, _, _, thread, s₂, s₃, s₄, ⟨hopen, hmagic, hvac₁, hvac₂,
    ⟨_, R₂, L₂, length_loadBytes, hk₂⟩, hgrow₁.trans hm₂.grow fun x hx hheld => hm₁.old hx hheld,
    hcons, hseg⟩, rfl⟩)

/-- A `new` that knows one answer, and gives it where it is asked for. -/
theorem New.exists_takesPages {s s' : PhysicalMemory} (p : Nat) (hs' : Sane own s')
    (hg : Grow own Set.univ s s') :
    ∃ new : New, New.TakesPages own new ∧ ∀ n, new s n = some (p, s') ∧ new s' n = some (p, s') := by
  classical
  refine ⟨fun u _ => if u = s ∨ u = s' then some (p, s') else none,
    fun {u n q u'} hu hnew => ?_, fun n => ?_⟩
  · obtain ⟨hu', heq⟩ := Option.ite_none_right_eq_some.mp hnew
    obtain ⟨rfl, rfl⟩ := Prod.mk.inj (Option.some.inj heq)
    rcases hu' with rfl | rfl
    · exact ⟨hs', hg⟩
    · exact ⟨hs', .refl⟩
  · simp

/-- A load through the heap is one with the file in a memory of its own. -/
theorem HeapKernel.LoadEnds.refines {r : BitVec 32 × HeapKernel} (h : k.LoadEnds own R O path r)
    (hs : Sane own k.heap.pmm)
    (hgood : 0 ≤ (k.vfs.openFile path).1.toInt → Loadable k.vfs path) :
    ∃ new, New.TakesPages own new ∧
      ∀ around, LimineOS.loadAndExecuteElf new around k.kernel path = some (r.1, r.2.kernel) := by
  obtain ⟨r, k'⟩ := r
  rcases h with ⟨rfl, hnot⟩ | ⟨rfl, bs, buf, t, thread, heap, s₃, s₄, hl, rfl⟩
  · cases hnot with
    | noFile hopen =>
      obtain ⟨new, htakes, -⟩ := New.exists_takesPages 0 hs (.refl (s := k.heap.pmm))
      refine ⟨new, htakes, fun around => ?_⟩
      rw [LimineOS.loadAndExecuteElf_eq]
      exact if_pos hopen
    | @noElf buf bs heap R' L' hopen hmagic hvac hk hgrow =>
      obtain ⟨new, htakes, hnew⟩ :=
        New.exists_takesPages buf hk.wf.sane (hgrow.mono fun x _ _ => Set.mem_univ x)
      refine ⟨new, htakes, fun around => ?_⟩
      rw [LimineOS.loadAndExecuteElf_eq]
      refine (if_neg hopen).trans (Option.bind_eq_some_iff.mpr ⟨_, (hnew _).1, if_pos ?_⟩)
      exact fun hident => hmagic ((hgood (not_lt.mp hopen)).ident_eq.symm.trans hident)
  · obtain ⟨object, R', L', -, hk⟩ := hl.keeps
    have hload := hgood (not_lt.mp hl.opened)
    obtain ⟨new, htakes, hnew⟩ :=
      New.exists_takesPages t hk.wf.sane (hl.grow.mono fun x _ _ => Set.mem_univ x)
    refine ⟨new, htakes, fun around => ?_⟩
    have henter : k.kernel.enterLoop new around path = some (t, thread, s₃) := by
      refine (if_neg hl.opened).trans (Option.bind_eq_some_iff.mpr ⟨_, (hnew _).1, ?_⟩)
      refine (if_neg (not_not.mpr (hload.ident_eq.trans hl.magic))).trans
        (Option.bind_eq_some_iff.mpr ⟨_, (hnew _).2, ?_⟩)
      refine Option.bind_eq_some_iff.mpr ⟨(thread, s₃), ?_, rfl⟩
      have hheader : readHeader (k.kernel.vfs.fileLooks around path 1) = _ := hload.header_eq hl.magic
      rw [hheader]
      exact hl.construct
    rw [loadAndExecuteElf_of_enterLoop henter]
    refine Option.bind_eq_some_iff.mpr ⟨s₄, ?_, rfl⟩
    exact ((hload.inside hl.magic).loadTurns_eq hload.copied).trans hl.segments

end

-- ---------------------------------------------------------------------------
-- When loads return
-- ---------------------------------------------------------------------------

namespace HeapKernel

def requests (k : HeapKernel) (path : CStr) : List Nat :=
  loadRequests k.boot k.heap.pmm.mmap (readPhdrs (k.vfs.file path) (readHeader (k.vfs.file path)))

def NoThread (k : HeapKernel) (path : CStr) (heap : Heap) : Prop :=
  (readHeader (k.vfs.file path)).eIdent = elfMagic ∧
    (heap.NoRoom threadSize ∨
      ∃ r, Ends (heap.malloc threadSize) (· = r) ∧ r.2.pmm.allocs (k.requests path) = none)

/-- There is no room for the buffer, or for the thread once the file is in its buffer. -/
def RunsOut (k : HeapKernel) (path : CStr) : Prop :=
  0 ≤ (k.vfs.openFile path).1.toInt ∧
    (k.heap.NoRoom (k.vfs.fileSize path).toNat ∨
      ∃ r, Ends (k.heap.malloc (k.vfs.fileSize path).toNat) (· = r) ∧
      k.NoThread path (r.2.setRam (receive r.2.pmm.ram r.1 (k.vfs.fileCopy path))))

/-- What a load does when the heap keeps a store: it comes to an end unless memory
runs out, it is a load with a buffer of its own whatever lies around that, and the
objects of the others stay as they are. -/
structure Loads (own : Set Nat) (k : HeapKernel) (O : ObjectStore) (path : CStr) : Prop where
  returns : Ends (k.loadAndExecuteElf path) (fun _ => True) ↔ ¬k.RunsOut path
  refines : Safe (k.loadAndExecuteElf path) fun r =>
    ∃ new, New.TakesPages own new ∧
      ∀ around, LimineOS.loadAndExecuteElf new around k.kernel path = some (r.1, r.2.kernel)
  keeps : Safe (k.loadAndExecuteElf path) fun r =>
    ∃ O', Heap.Refines own r.2.heap O' ∧ O'.pages = O.pages ∧
      ∀ p bs, O.objects p = some bs → O'.objects p = some bs

section
variable {own : Set Nat} {k : HeapKernel} {R : List Region} {L : Nat → List Nat} {O : ObjectStore}
  {path : CStr}
  {hdr : Elf64Header} {pmm s : PhysicalMemory} {thread : Thread} {phs : List Turn}
  {mmap : List LimineMemmapEntry} {ram : Mem} {tr : List (Event × Nat)}

theorem load_returns_iff (h : Keeps own k.heap R L O)
    (hgood : 0 ≤ (k.vfs.openFile path).1.toInt → Loadable k.vfs path) :
    Ends (k.loadAndExecuteElf path) (fun _ => True) ↔ ¬k.RunsOut path := by
  rw [loadAndExecuteElf_eq, RunsOut]
  generalize hmax : maxPhnum = rounds
  by_cases hopen : (k.vfs.openFile path).1.toInt < 0
  · rw [if_pos hopen]
    exact iff_of_true (ends_pure trivial) fun hout => absurd hout.1 (not_le.mpr hopen)
  have hload := hgood (not_lt.mp hopen)
  obtain ⟨c, hc, hlen⟩ := hload.copied
  rw [if_neg hopen, and_iff_right (not_lt.mp hopen)]
  refine ends_bind_stuck_iff (h.wf.malloc_stuck hload.room) (h.wf.malloc_returns hload.room)
    (h.wf.malloc_safe hload.room) ?_
  rintro _ ⟨t₁, s₁, R₁, L₁, rfl, hm₁⟩
  obtain ⟨hk₁, hgrow₁⟩ := h.receive hm₁ hlen
  have hbuf₁ := hk₁.buffered (ObjectStore.objects_put_self ..)
  rw [← file_eq hc] at hbuf₁
  rw [NoThread, hc]
  dsimp only
  rw [hbuf₁.ident (hlen ▸ hload.ident)]
  by_cases hmagic : (readHeader (k.vfs.file path)).eIdent = elfMagic
  · have hinside := hload.inside hmagic
    rw [if_neg (not_not.mpr hmagic), and_iff_right hmagic, hbuf₁.header (hlen ▸ hinside.header)]
    refine ends_bind_stuck_iff (hk₁.wf.malloc_stuck (by decide)) (hk₁.wf.malloc_returns (by decide))
      (hk₁.wf.malloc_safe (by decide)) ?_
    rintro _ ⟨t₂, s₂, R₂, L₂, rfl, hm₂⟩
    have hbuf₂ := hk₁.buffered_malloc hm₂ (ObjectStore.objects_put_self ..)
    rw [← file_eq hc] at hbuf₂
    rw [requests, ← hm₂.grow.mmap.trans hgrow₁.mmap, ← hmax]
    refine ends_ofOption_ofOption_iff.trans (Iff.trans ?_ Option.isSome_iff_ne_none)
    exact hbuf₂.space_isSome_iff hm₂.wf.sane (hlen ▸ hinside) (hload.fits hmagic)
  · rw [if_pos hmagic]
    exact iff_of_true (ends_pure trivial) fun hout => hmagic hout.1

theorem segments_grow (hs : Sane own pmm)
    (hcons : Thread.construct k.boot k.sched.getCurCPU.kstackPhys pmm hdr.eEntry true =
      some (thread, s))
    (hfit : ∀ ph ∈ phs, ph.Fits) {s' : PhysicalMemory}
    (hseg : phs.foldlM (loadPhdr thread.rootTable) s = some s') :
    Sane own s' ∧ Grow own ∅ pmm s' := by
  obtain ⟨-, used, stackAddr, hconstructed⟩ := Thread.construct_ok hs hcons
  obtain ⟨used', hext, -, -⟩ := loadPhdrs_ok hconstructed.space hfit hseg
  exact ⟨hext.space.sane, hconstructed.grow.trans hext.grow fun x hx hheld =>
    absurd (hconstructed.tables x hx) hheld.not_free⟩

theorem LoadEnds.keeps {r : BitVec 32 × HeapKernel} (h : k.LoadEnds own R O path r)
    (hk : Keeps own k.heap R L O)
    (hgood : 0 ≤ (k.vfs.openFile path).1.toInt → Loadable k.vfs path) :
    ∃ O', Heap.Refines own r.2.heap O' ∧ O'.pages = O.pages ∧
      ∀ p bs, O.objects p = some bs → O'.objects p = some bs := by
  obtain ⟨r, k'⟩ := r
  rcases h with ⟨rfl, hnot⟩ | ⟨rfl, bs, buf, t, thread, heap, s₃, s₄, hl, rfl⟩
  · cases hnot with
    | noFile hopen => exact ⟨O, ⟨R, L, hk⟩, rfl, fun p bs hp => hp⟩
    | @noElf buf bs heap R' L' hopen hmagic hvac hk' hgrow =>
      exact ⟨_, ⟨R', L', hk'⟩, rfl,
        fun p cs hp => (ObjectStore.objects_put_of_ne (hvac.ne hp)).trans hp⟩
  · obtain ⟨object, R', L', -, hk'⟩ := hl.keeps
    have hfit := (hgood (not_lt.mp hl.opened)).fits hl.magic
    obtain ⟨hsane, hgrow⟩ :=
      segments_grow hk'.wf.sane hl.construct (List.forall_mem_map.mpr hfit) hl.segments
    obtain ⟨hheap, hpages⟩ := hk'.untouched hgrow
    refine ⟨_, ⟨R', L', hk'.elsewhere hsane hheap hpages⟩, rfl, fun p cs hp => ?_⟩
    have hput : (O.put buf bs).objects p = some cs :=
      (ObjectStore.objects_put_of_ne (hl.buffer.ne hp)).trans hp
    exact (ObjectStore.objects_put_of_ne (hl.object.ne hput)).trans hput

theorem loads (h : Keeps own k.heap R L O)
    (hgood : 0 ≤ (k.vfs.openFile path).1.toInt → Loadable k.vfs path) : k.Loads own O path where
  returns := load_returns_iff h hgood
  refines := (load_safe h hgood).mono fun _ hends => hends.refines h.wf.sane hgood
  keeps := (load_safe h hgood).mono fun _ hends => hends.keeps h hgood

def low (heap : Heap) : HeapKernel :=
  ⟨(elfMachine lowFile).vfs, heap, (elfMachine lowFile).sched, highBoot⟩

theorem lowFile_file : (elfMachine lowFile).vfs.file pathT = bytesMem lowFile := by
  rw [VFS.file, lowFile_copied]
  rfl

theorem lowFile_loadable : Loadable (elfMachine lowFile).vfs pathT where
  room := by decide +kernel
  copied := by
    obtain ⟨c, hc, hbytes⟩ := Option.map_eq_some_iff.mp lowFile_copied
    have hsize : lowFile.length = ((elfMachine lowFile).vfs.fileSize pathT).toNat := by decide +kernel
    exact ⟨c, hc, (congrArg List.length hbytes).trans hsize⟩
  ident := by decide +kernel
  inside _ := by
    have hphdrs : readPhdrs (bytesMem lowFile) (readHeader (bytesMem lowFile)) =
        [⟨1, 120, 0x400000, 4, 4⟩] := by
      decide +kernel
    rw [lowFile_file]
    refine ⟨by decide +kernel, by decide +kernel, ?_⟩
    rw [hphdrs]
    decide +kernel
  fits _ := by
    rw [lowFile_file]
    decide +kernel

/-- From boot on, whatever the clients of the heap have done. -/
theorem run_loads (hm : MapOk mmap) (hfits : PhysicalMemory.Fits mmap)
    (hspace : PhysicalMemory.highestUsable mmap ≤ 2 ^ 63)
    (hO : Heap.Boots (Heap.bootOwn mmap ram) (Heap.bootHeap mmap ram).pmm O)
    (hrun : Run Heap.HeapStep (Heap.bootHeap mmap ram) tr k.heap) (hgood : Heap.Behaved O tr)
    (hload : 0 ≤ (k.vfs.openFile path).1.toInt → Loadable k.vfs path) :
    ∃ O', Run Serves O tr O' ∧ k.Loads (Heap.bootOwn mmap ram) O' path := by
  obtain ⟨O', hserves, R, L, hk⟩ := (Heap.bootHeap_refines hm hfits hspace hO).run hrun hgood
  exact ⟨O', hserves, loads hk hload⟩

theorem run_loads_lowMemory : ∃ tr s, Run Heap.HeapStep Heap.lowHeap tr s ∧ tr.length = 7 ∧
    ∃ O', Run Serves .empty tr O' ∧ (low s).Loads Heap.lowOwn O' pathT := by
  obtain ⟨p, q, r, c, s, h⟩ := Heap.lowRun_calloc
  exact ⟨_, s, h.run, rfl,
    run_loads (k := low s) Heap.lowMemory_ok Heap.lowMemory_fits (by decide) Heap.boots_empty h.run
    h.good fun _ => lowFile_loadable⟩

end

end HeapKernel

end LimineOS
