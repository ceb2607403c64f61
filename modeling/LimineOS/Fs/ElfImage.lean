import LimineOS.Fs.ElfMappings

/-!
# The memory image of a load

What the new thread finds at the addresses of its segments. The buffer holds
the file (`Opens.fileLooks`), and a page shows the block of the last header on
it, from the block's start: whether that is what the file describes can be
read off the headers (`load_image_iff`).
-/

namespace LimineOS

open ByteMemory PhysicalMemory VirtualMemory

-- ---------------------------------------------------------------------------
-- The file
-- ---------------------------------------------------------------------------

def FileInfo.bytes (mem : Mem) (f : FileInfo) : Mem := fun j => mem (u64 (f.data + j))

/-- The file `f` is what an `open` of the path finds, and `read` reads it. -/
structure Opens (mp : List Byte) (vfs : VFS Initrd) (path : CStr) (i : Nat) (f : FileInfo) : Prop where
  mounted : vfs.Mounted mp
  resolves : (vfs.resolve path).isSome
  lookup : vfs.world.lookup (path.skip mp.length) = some i
  file : vfs.world.files[i]? = some f
  data : f.data ≠ 0

section
variable {mp : List Byte} {vfs : VFS Initrd} {around : Nat → Mem} {path : CStr} {i : Nat}
  {f : FileInfo} {turn : Turn}

theorem Opens.fileLooks (h : Opens mp vfs path i f) (j : Nat) :
    Set.EqOn (vfs.fileLooks around path j) (f.bytes vfs.world.mem) (span 0 f.size.toNat) := by
  obtain ⟨⟨fs, n⟩, hr⟩ := Option.isSome_iff_exists.mp h.resolves
  obtain rfl := h.mounted.resolve hr
  have hcopy : (vfs.fileCopy path).map Copy.bytes = some (vfs.world.contents f) := by
    rw [VFS.fileCopy_eq hr h.lookup h.file h.data, Option.map_some]
  have hlen := f.size.isLt
  have hbytes : Set.EqOn (vfs.fileLooks around path j) (bytesMem (vfs.world.contents f))
      (span 0 (vfs.world.contents f).length) :=
    VFS.fileLooks_eqOn hcopy (by rw [Initrd.length_contents]; omega) j
  rw [Initrd.length_contents] at hbytes
  intro x hx
  have hlt : x < f.size.toNat := by
    have hx' := hx.2
    omega
  rw [hbytes hx, bytesMem, Initrd.contents, List.getD_eq_getElem?_getD, List.getElem?_map,
    List.getElem?_range hlt]
  rfl

theorem Opens.source (h : Opens mp vfs path i f) (hturn : turn ∈ vfs.turns around path) :
    Set.EqOn turn.source (f.bytes vfs.world.mem) (span 0 f.size.toNat) := by
  obtain ⟨j, hj⟩ := turnsFrom_source hturn
  rw [hj]
  exact h.fileLooks j

def programHeaders (file : Mem) : List Elf64Phdr := readPhdrs file (readHeader file)

/-- The header table and the segments lie inside the file, and no segment is
larger in the file than in memory. -/
structure WellFormed (file : Mem) (size : Nat) : Prop where
  header : 64 ≤ size
  phdrs : (readHeader file).ePhoff + (readHeader file).ePhnum * phdrSize ≤ size
  segments : ∀ ph ∈ programHeaders file, ph.Loads →
    ph.pOffset + ph.pFilesz ≤ size ∧ ph.pFilesz ≤ ph.pMemsz

theorem Opens.phdrs (h : Opens mp vfs path i f)
    (hwf : WellFormed (f.bytes vfs.world.mem) f.size.toNat) :
    (vfs.turns around path).map Turn.toElf64Phdr = programHeaders (f.bytes vfs.world.mem) :=
  turnsOf_phdrs h.fileLooks hwf.header (.inr hwf.phdrs)

end

-- ---------------------------------------------------------------------------
-- The image
-- ---------------------------------------------------------------------------

def readVirt (ram : Mem) (root : Nat) (v : BitVec 64) : Option Byte :=
  (walk ram root v).map fun tr => ram (entryAddr tr.leaf + v.toNat % 4096)

def Elf64Phdr.byte (file : Mem) (ph : Elf64Phdr) (i : Nat) : Byte :=
  if i < ph.pFilesz then file (ph.pOffset + i) else 0

/-- Every byte of every loadable segment is mapped and has its value. -/
def ImageOk (file : Mem) (phs : List Elf64Phdr) (ram : Mem) (root : Nat) : Prop :=
  ∀ ph ∈ phs, ph.Loads →
    ∀ i < ph.pMemsz, readVirt ram root (ph.pVaddr + BitVec.ofNat 64 i) = some (ph.byte file i)

def lastOn (phs : List Elf64Phdr) (v : BitVec 64) : Option Elf64Phdr :=
  phs.reverse.find? fun ph => ph.Loads ∧ SamePage ph.pVaddr v

def Elf64Phdr.offset (ph : Elf64Phdr) (i : Nat) : Nat := (ph.pVaddr + BitVec.ofNat 64 i).toNat % 4096

/-- On the page of every byte some loadable header starts, and the last of them
describes that byte at its offset in the page. Where this is past the bytes in
the file, the memory has to be `cleared`. -/
def PagesAgree (cleared : Prop) (file : Mem) (phs : List Elf64Phdr) : Prop :=
  ∀ ph ∈ phs, ph.Loads → ∀ i < ph.pMemsz, ∃ q, lastOn phs (ph.pVaddr + BitVec.ofNat 64 i) = some q ∧
    (ph.offset i < q.pFilesz ∨ cleared) ∧ q.byte file (ph.offset i) = ph.byte file i

section
variable {own : Set Nat} {new : New} {around : Nat → Mem} {k k' : Kernel} {path : CStr}
  {s₂ s₃ : PhysicalMemory}
  {stackAddr root : Nat} {used used' : List Nat} {v : BitVec 64} {q : Elf64Phdr} {phs : List Elf64Phdr}

theorem lastOn_some (h : lastOn phs v = some q) : q ∈ phs ∧ q.Loads ∧ SamePage q.pVaddr v := by
  refine ⟨List.mem_reverse.mp (List.mem_of_find?_eq_some h), ?_⟩
  simpa using List.find?_some h

theorem lastOn_none (h : lastOn phs v = none) : ∀ ph ∈ phs, ph.Loads → ¬SamePage ph.pVaddr v := by
  intro ph hph hl hsame
  have hnot := List.find?_eq_none.mp h ph (List.mem_reverse.mpr hph)
  simp only [decide_eq_true_eq] at hnot
  exact hnot ⟨hl, hsame⟩

theorem lastCall_segments (gs : List Segment) (root : Nat) (v : BitVec 64) :
    lastCall (gs.map (Segment.call root)) root v =
      (gs.reverse.find? fun g => SamePage g.phdr.pVaddr v).map (Segment.call root) := by
  have hroot : ∀ g, (Segment.call root g).root = root := fun _ => rfl
  rw [lastCall_map hroot]
  rfl

theorem Loaded.headers (h : Loaded own around k k' path root s₂ s₃ used used' stackAddr)
    (hphs : (k.vfs.turns around path).map Turn.toElf64Phdr = phs) :
    (k.segments around path root s₃).map (fun g => g.phdr.toElf64Phdr) = phs.filter (·.Loads) := by
  rw [← hphs, List.filter_map]
  exact (List.map_map ..).symm.trans (congrArg (List.map Turn.toElf64Phdr) h.phdrs)

theorem Loaded.leaf_of_lastOn (h : Loaded own around k k' path root s₂ s₃ used used' stackAddr)
    (hphs : (k.vfs.turns around path).map Turn.toElf64Phdr = phs) (hq : lastOn phs v = some q) :
    ∃ g ∈ k.segments around path root s₃, g.phdr.toElf64Phdr = q ∧ g.phdr ∈ k.vfs.turns around path ∧
      VirtualMemory.leaf k'.pmm.ram root v = some (g.call root).entry := by
  have hfilter : (fun ph : Elf64Phdr => decide (ph.Loads ∧ SamePage ph.pVaddr v)) =
      fun ph => decide ph.Loads && decide (SamePage ph.pVaddr v) := funext fun ph => Bool.decide_and ..
  have hfind : ((k.segments around path root s₃).reverse.find? fun g => SamePage g.phdr.pVaddr v).map
      (fun g => g.phdr.toElf64Phdr) = some q := by
    have hmap := List.find?_map (f := fun g : Segment => g.phdr.toElf64Phdr)
      (p := fun ph => decide (SamePage ph.pVaddr v)) (l := (k.segments around path root s₃).reverse)
    rw [List.map_reverse, h.headers hphs, ← List.filter_reverse, List.find?_filter] at hmap
    rw [lastOn, hfilter] at hq
    simp only [Bool.decide_and, Bool.decide_eq_true] at hmap
    exact hmap.symm.trans hq
  obtain ⟨g, hg, hgq⟩ := Option.map_eq_some_iff.mp hfind
  have hmem := List.mem_reverse.mp (List.mem_of_find?_eq_some hg)
  refine ⟨g, hmem, hgq, ?_, ?_⟩
  · have hturn := List.mem_map_of_mem (f := Segment.phdr) hmem
    rw [h.phdrs] at hturn
    exact (List.mem_filter.mp hturn).1
  · rw [h.leaf v, lastCall_segments, hg]
    rfl

theorem readVirt_of_leaf {e : BitVec 64} {s : PhysicalMemory} (h : Space own root used s)
    (hleaf : VirtualMemory.leaf s.ram root v = some e) :
    readVirt s.ram root v = some (s.ram (entryAddr e + v.toNat % 4096)) := by
  rw [readVirt, h.walk_eq, hleaf, Option.map_some, Option.map_some]

theorem Loaded.readVirt_eq {mp : List Byte} {i : Nat} {f : FileInfo}
    (h : Loaded own around k k' path root s₂ s₃ used used' stackAddr) (hopen : Opens mp k.vfs path i f)
    (hphs : (k.vfs.turns around path).map Turn.toElf64Phdr = phs)
    (hinside : ∀ ph ∈ phs, ph.Loads → ph.pOffset + ph.pFilesz ≤ f.size.toNat)
    (hq : lastOn phs v = some q)
    (hbyte : v.toNat % 4096 < q.pFilesz ∨ ∀ x, k.pmm.Free x → k.pmm.ram x = 0) :
    readVirt k'.pmm.ram root v = some (q.byte (f.bytes k.vfs.world.mem) (v.toNat % 4096)) := by
  obtain ⟨g, hg, rfl, hturn, hleaf⟩ := h.leaf_of_lastOn hphs hq
  obtain ⟨hmem, hl, -⟩ := lastOn_some hq
  have hplaced := h.placed g hg
  have hsize := hinside g.phdr.toElf64Phdr hmem hl
  have hpages := g.phdr.pages_pos
  rw [readVirt_of_leaf h.extended.space hleaf, hplaced.entryAddr h.constructed.space.sane,
    Elf64Phdr.byte]
  split_ifs with hlt
  · rw [hplaced.copied _ hlt, hopen.source hturn ⟨by omega, by omega⟩]
  · have hclear := hbyte.resolve_left hlt
    have hin : g.addr + v.toNat % 4096 ∈ g.block := ⟨by omega, by omega⟩
    have hfree := hplaced.free _ hin
    obtain ⟨hfree₂, hram₂⟩ := h.constructed.grow.free _ hfree
    obtain ⟨hfree₁, hram₁⟩ := h.grow.free _ hfree₂
    rw [hplaced.rest _ (Nat.not_lt.mp hlt) (by omega) (by rw [hram₂, hram₁, hclear _ hfree₁])]

theorem Loaded.readVirt_none (h : Loaded own around k k' path root s₂ s₃ used used' stackAddr)
    (hphs : (k.vfs.turns around path).map Turn.toElf64Phdr = phs) (hq : lastOn phs v = none)
    (hout : ¬Thread.DefaultMapped k.boot k.pmm.mmap v) : readVirt k'.pmm.ram root v = none := by
  have hleaf := h.leaf_of_not ((forall_turns_iff (P := fun ph => ph.Loads → ¬SamePage ph.pVaddr v)).mpr
    (hphs ▸ lastOn_none hq))
  have hnone : VirtualMemory.leaf s₃.ram root v = none := by
    rw [← Option.not_isSome_iff_eq_none, h.mapped v]
    exact hout
  rw [readVirt, h.extended.space.walk_eq, hleaf, hnone]
  rfl

theorem Loaded.imageOk {mp : List Byte} {i : Nat} {f : FileInfo}
    (h : Loaded own around k k' path root s₂ s₃ used used' stackAddr) (hopen : Opens mp k.vfs path i f)
    (hphs : (k.vfs.turns around path).map Turn.toElf64Phdr = phs)
    (hinside : ∀ ph ∈ phs, ph.Loads → ph.pOffset + ph.pFilesz ≤ f.size.toNat)
    (hagree : PagesAgree (∀ x, k.pmm.Free x → k.pmm.ram x = 0) (f.bytes k.vfs.world.mem) phs) :
    ImageOk (f.bytes k.vfs.world.mem) phs k'.pmm.ram root := by
  intro ph hph hl j hj
  obtain ⟨q, hq, hbyte, hsame⟩ := hagree ph hph hl j hj
  rw [h.readVirt_eq hopen hphs hinside hq hbyte, ← hsame]
  rfl

theorem Loaded.pagesAgree {mp : List Byte} {i : Nat} {f : FileInfo}
    (h : Loaded own around k k' path root s₂ s₃ used used' stackAddr) (hopen : Opens mp k.vfs path i f)
    (hphs : (k.vfs.turns around path).map Turn.toElf64Phdr = phs)
    (hinside : ∀ ph ∈ phs, ph.Loads → ph.pOffset + ph.pFilesz ≤ f.size.toNat)
    (hclear : ∀ x, k.pmm.Free x → k.pmm.ram x = 0)
    (hout : ∀ ph ∈ phs, ph.Loads → ∀ i < ph.pMemsz,
      ¬Thread.DefaultMapped k.boot k.pmm.mmap (ph.pVaddr + BitVec.ofNat 64 i))
    (himage : ImageOk (f.bytes k.vfs.world.mem) phs k'.pmm.ram root) :
    PagesAgree (∀ x, k.pmm.Free x → k.pmm.ram x = 0) (f.bytes k.vfs.world.mem) phs := by
  intro ph hph hl j hj
  have hread := himage ph hph hl j hj
  cases hq : lastOn phs (ph.pVaddr + BitVec.ofNat 64 j) with
  | none =>
    rw [h.readVirt_none hphs hq (hout ph hph hl j hj)] at hread
    exact absurd hread (by simp)
  | some q =>
    rw [h.readVirt_eq hopen hphs hinside hq (.inr hclear)] at hread
    exact ⟨q, rfl, .inr hclear, Option.some.inj hread⟩

end

def fileT (file : List Byte) : FileInfo :=
  { data := 0x1000
    size := BitVec.ofNat 32 file.length
    name := cstr [0x74] }

theorem elfMachine_opens (file : List Byte) :
    Opens [0x2f] (elfMachine file).vfs pathT 0 (fileT file) where
  mounted := rfl
  resolves := by
    show ((elfMachine []).vfs.resolve pathT).isSome
    decide +kernel
  lookup := by
    show (elfMachine []).vfs.world.names.findIdx?
      (fun name => strncmp name (pathT.skip 1) 128 = 0) = some 0
    decide +kernel
  file := rfl
  data := show 0x1000 ≠ 0 by decide

theorem elfMachine_clear (file : List Byte) :
    ∀ x, (elfMachine file).pmm.Free x → (elfMachine file).pmm.ram x = 0 :=
  fun _ _ => rfl

theorem pagesAgree_single {cleared : Prop} {file : Mem} {ph : Elf64Phdr}
    (hvaddr : ph.pVaddr.toNat % 4096 = 0)
    (hmemsz : ph.pMemsz ≤ 4096) (hclear : ph.pMemsz ≤ ph.pFilesz ∨ cleared) :
    PagesAgree cleared file [ph] := by
  intro ph' hph hl i hi
  obtain rfl := List.mem_singleton.mp hph
  have hoffset : ph'.offset i = i := by
    rw [Elf64Phdr.offset, BitVec.toNat_add, BitVec.toNat_ofNat]
    omega
  have hsame : SamePage ph'.pVaddr (ph'.pVaddr + BitVec.ofNat 64 i) := by
    rw [SamePage, BitVec.toNat_add, BitVec.toNat_ofNat]
    omega
  refine ⟨ph', ?_, hclear.imp_left fun hle => by omega, by rw [hoffset]⟩
  rw [lastOn, List.reverse_singleton, List.find?_singleton, if_pos (by simpa using ⟨hl, hsame⟩)]

/-- Four bytes 16 bytes above a page. -/
def shiftedFile : List Byte := elfFile 0x400010 4 4 [1, 2, 3, 4]

theorem lowFile_wellFormed :
    WellFormed ((fileT lowFile).bytes (elfMachine lowFile).vfs.world.mem) (fileT lowFile).size.toNat
      where
  header := by decide +kernel
  phdrs := by decide +kernel
  segments := by decide +kernel

theorem lowFile_headers : programHeaders ((fileT lowFile).bytes (elfMachine lowFile).vfs.world.mem) =
    [⟨1, 120, 0x400000, 4, 4⟩] := by decide +kernel

section
variable {own : Set Nat} {new : New} {around : Nat → Mem} {k k' : Kernel} {path : CStr}

/-- The image is right exactly when the last header on each page describes
every byte of the page that a segment has there: for the files whose copies
stay in their blocks, and, in the second direction, memory that was clear and
segments apart from what the constructor maps. -/
theorem load_image_iff {mp : List Byte} {i : Nat} {f : FileInfo} (hopen : Opens mp k.vfs path i f)
    (hwf : WellFormed (f.bytes k.vfs.world.mem) f.size.toNat) (hnew : New.TakesPages own new)
    (hs : Sane own k.pmm)
    (hfit : ∀ ph ∈ programHeaders (f.bytes k.vfs.world.mem), ph.Fits)
    (hload : loadAndExecuteElf new around k path = some (0, k')) :
    ∃ t, (k'.sched.queue k.sched.curCpuCore).tail = some t ∧
      (PagesAgree (∀ x, k.pmm.Free x → k.pmm.ram x = 0) (f.bytes k.vfs.world.mem)
          (programHeaders (f.bytes k.vfs.world.mem)) →
        ImageOk (f.bytes k.vfs.world.mem) (programHeaders (f.bytes k.vfs.world.mem)) k'.pmm.ram
          (k'.sched.threads t).rootTable) ∧
      ((∀ x, k.pmm.Free x → k.pmm.ram x = 0) →
        (∀ ph ∈ programHeaders (f.bytes k.vfs.world.mem), ph.Loads → ∀ i < ph.pMemsz,
          ¬Thread.DefaultMapped k.boot k.pmm.mmap (ph.pVaddr + BitVec.ofNat 64 i)) →
        ImageOk (f.bytes k.vfs.world.mem) (programHeaders (f.bytes k.vfs.world.mem)) k'.pmm.ram
          (k'.sched.threads t).rootTable →
        PagesAgree (∀ x, k.pmm.Free x → k.pmm.ram x = 0) (f.bytes k.vfs.world.mem)
          (programHeaders (f.bytes k.vfs.world.mem))) := by
  obtain ⟨t, thread, s₁, s₂, s₃, h⟩ := loadAndExecuteElf_cases hload
  have hphs := @Opens.phdrs _ _ around _ _ _ hopen hwf
  have hfit' : ∀ turn ∈ k.vfs.turns around path, turn.Fits :=
    (forall_turns_iff (P := Elf64Phdr.Fits)).mpr (hphs ▸ hfit)
  obtain ⟨used, used', stackAddr, hloaded⟩ := h.loaded hnew hs hfit'
  obtain ⟨htail, hroot⟩ := h.added_thread
  have hinside : ∀ ph ∈ programHeaders (f.bytes k.vfs.world.mem), ph.Loads →
      ph.pOffset + ph.pFilesz ≤ f.size.toNat :=
    fun ph hph hl => (hwf.segments ph hph hl).1
  rw [← hroot] at hloaded
  exact ⟨t, htail, hloaded.imageOk hopen hphs hinside, hloaded.pagesAgree hopen hphs hinside⟩

end

theorem load_image_iff_lowFile :
    ∃ k' t, loadAndExecuteElf heapWithRoom strayBytes (elfMachine lowFile) pathT = some (0, k') ∧
    (k'.sched.queue 0).tail = some t ∧
    ImageOk ((fileT lowFile).bytes (elfMachine lowFile).vfs.world.mem) [⟨1, 120, 0x400000, 4, 4⟩]
      k'.pmm.ram
      (k'.sched.threads t).rootTable := by
  obtain ⟨k', hload⟩ := lowFile_load
  obtain ⟨t, htail, himage, -⟩ :=
    load_image_iff (elfMachine_opens lowFile) lowFile_wellFormed heapWithRoom_takesPages
    elfMachine_sane (by rw [lowFile_headers]; decide) hload
  rw [lowFile_headers] at himage
  exact ⟨k', t, hload, htail, himage (pagesAgree_single (by decide) (by decide) (.inl (by decide)))⟩

/-- The segment's bytes are at the start of the page, 16 bytes too low. -/
theorem shiftedFile_not_imageOk : ∃ k' t,
    loadAndExecuteElf heapWithRoom strayBytes (elfMachine shiftedFile) pathT = some (0, k') ∧
      (k'.sched.queue 0).tail = some t ∧
      ¬ImageOk ((fileT shiftedFile).bytes (elfMachine shiftedFile).vfs.world.mem)
        [⟨1, 120, 0x400010, 4, 4⟩] k'.pmm.ram
        (k'.sched.threads t).rootTable := by
  have hcopied := @elfMachine_copied shiftedFile (by decide +kernel)
  have hphdrs : ((elfMachine shiftedFile).vfs.turns strayBytes pathT).map Turn.toElf64Phdr =
      [⟨1, 120, 0x400010, 4, 4⟩] :=
    (VFS.turns_eq hcopied (by decide +kernel) (by decide +kernel) (by decide +kernel)).trans
      (by decide +kernel)
  have hmagic : (readHeader ((elfMachine shiftedFile).vfs.fileLooks strayBytes pathT 0)).eIdent =
      elfMagic :=
    (VFS.ident_eq hcopied (by decide +kernel) (by decide +kernel)).trans (by decide +kernel)
  obtain ⟨k', hload⟩ :=
    elfMachine_load shiftedFile (by decide +kernel) hmagic hphdrs (fun _ => by decide) (by decide)
  obtain ⟨t, thread, s₁, s₂, s₃, h⟩ := loadAndExecuteElf_cases hload
  have hfit : ∀ turn ∈ (elfMachine shiftedFile).vfs.turns strayBytes pathT, turn.Fits := by
    rw [forall_turns_iff (P := Elf64Phdr.Fits), hphdrs]
    decide
  obtain ⟨used, used', stackAddr, hloaded⟩ := h.loaded heapWithRoom_takesPages elfMachine_sane hfit
  obtain ⟨htail, hroot⟩ := h.added_thread
  refine ⟨k', t, hload, htail, fun himage => ?_⟩
  have houtside : ∀ ph ∈ [(⟨1, 120, 0x400010, 4, 4⟩ : Elf64Phdr)], ph.Loads → ∀ i < ph.pMemsz,
      ¬Thread.DefaultMapped (elfMachine shiftedFile).boot (elfMachine shiftedFile).pmm.mmap
        (ph.pVaddr + BitVec.ofNat 64 i) := by
    rintro ph hph - i hi
    obtain rfl := List.mem_singleton.mp hph
    have hlt : i < 4 := hi
    refine elfMachine_outside shiftedFile ?_
    rw [BitVec.toNat_add, BitVec.toNat_ofNat]
    show (0x400010 + i % 2 ^ 64) % 2 ^ 64 % 2 ^ 48 < 2 ^ 47
    omega
  have hagree := hloaded.pagesAgree (elfMachine_opens shiftedFile) hphdrs (by decide +kernel)
    (elfMachine_clear shiftedFile) houtside (hroot ▸ himage)
  obtain ⟨q, hq, -, hsame⟩ := hagree _ (List.mem_singleton_self _) (by decide) 0 (by decide)
  obtain ⟨hmem, -⟩ := lastOn_some hq
  obtain rfl := List.mem_singleton.mp hmem
  exact absurd hsame (by decide +kernel)

end LimineOS
