import LimineOS.Fs.ElfMappings

/-!
# The copies of a load

Each segment is copied by one `memcpy` of `p_filesz` bytes into a block whose
size comes from `p_memsz`, rounded down to pages. The copy is contained in the
block, and touches nothing that anybody else holds, for every segment of a load
exactly when no `p_filesz` goes past the rounded size (`load_copies_iff`).
-/

namespace LimineOS

open ByteMemory PhysicalMemory VirtualMemory

/-- One `memcpy` of the loop: the allocator when the block is asked for, and
the memory into which the copy is made. -/
structure SegmentCopy extends Segment where
  asked : PhysicalMemory
  mapped : PhysicalMemory

def SegmentCopy.dest (c : SegmentCopy) : Set Nat := span c.addr c.phdr.pFilesz

def SegmentCopy.result (c : SegmentCopy) : Mem :=
  copyIn c.mapped.ram c.addr c.phdr.source c.phdr.pOffset c.phdr.pFilesz

def copyOf (root : Nat) (s : PhysicalMemory) (ph : Turn) : Option SegmentCopy := do
  let (addr, s₁) ← s.alloc ph.pages
  let (s₂, _) ← mapPage s₁ root ph.pVaddr (BitVec.ofNat 64 addr) Thread.userFlags
  some ⟨⟨ph, addr⟩, s, s₂⟩

/-- The copies of the loop, those before a halt included. -/
def copiesOf (root : Nat) : PhysicalMemory → List Turn → List SegmentCopy
  | _, [] => []
  | s, ph :: phs =>
    if ph.Loads then
      (copyOf root s ph).elim [] fun c => c :: copiesOf root { c.mapped with ram := c.result } phs
    else copiesOf root s phs

def Kernel.copies (new : New) (around : Nat → Mem) (k : Kernel) (path : CStr) : List SegmentCopy :=
  (k.enterLoop new around path).elim [] fun (_, thread, s) =>
    copiesOf thread.rootTable s (k.vfs.turns around path)

/-- The copy stays in the block, and leaves alone what was held before the
block was, the bitmap, and what `MapPage` has taken since. -/
structure SegmentCopy.Contained (own : Set Nat) (c : SegmentCopy) : Prop where
  inside : c.dest ⊆ c.block
  held : ∀ x, c.asked.Held x → c.result x = c.mapped.ram x
  bitmap : ∀ x ∈ own, c.result x = c.mapped.ram x
  taken : ∀ x, c.mapped.Held x → x ∉ c.block → c.result x = c.mapped.ram x

section
variable {own : Set Nat} {root : Nat} {used : List Nat} {s s' : PhysicalMemory} {ph : Turn}
  {phs : List Turn} {c : SegmentCopy} {new : New} {around : Nat → Mem} {k k' : Kernel} {path : CStr}

theorem SegmentCopy.result_of_not_mem {x : Nat} (hx : x ∉ c.dest) : c.result x = c.mapped.ram x :=
  (copyIn_apply ..).trans (if_neg hx)

theorem SegmentCopy.inside_iff : c.dest ⊆ c.block ↔ c.phdr.pFilesz ≤ 4096 * c.phdr.pages := by
  constructor
  · intro h
    by_contra hlt
    have hlast : c.addr + 4096 * c.phdr.pages ∈ c.dest := ⟨by omega, by omega⟩
    exact absurd (h hlast).2 (lt_irrefl _)
  · intro h
    exact span_subset (le_refl _) (by omega)

theorem loadPhdr_eq (hl : ph.Loads) :
    loadPhdr root s ph = (copyOf root s ph).map fun c => { c.mapped with ram := c.result } := by
  rw [loadPhdr, if_pos hl, copyOf]
  cases halloc : s.alloc ph.pages with
  | none => rfl
  | some a =>
    obtain ⟨addr, s₁⟩ := a
    cases hmap : mapPage s₁ root ph.pVaddr (BitVec.ofNat 64 addr) Thread.userFlags with
    | none => simp only [Option.bind_eq_bind, Option.bind_some, hmap, Option.bind_none, Option.map_none]
    | some m =>
      simp only [Option.bind_eq_bind, Option.bind_some, hmap, Option.map_some, SegmentCopy.result]

theorem copyOf_cases (h : copyOf root s ph = some c) :
    c.phdr = ph ∧ c.asked = s ∧ ∃ s₁ new, s.alloc ph.pages = some (c.addr, s₁) ∧
      mapPage s₁ root ph.pVaddr (BitVec.ofNat 64 c.addr) Thread.userFlags = some (c.mapped, new) := by
  simp only [copyOf, Option.bind_eq_bind, Option.bind_eq_some_iff] at h
  obtain ⟨⟨addr, s₁⟩, halloc, ⟨s₂, new⟩, hmap, h⟩ := h
  obtain rfl := Option.some.inj h
  exact ⟨rfl, rfl, s₁, new, halloc, hmap⟩

theorem copyOf_contained (h : Space own root used s) (hfit : ph.Fits) (hl : ph.Loads)
    (hc : copyOf root s ph = some c) :
    c.Contained own := by
  obtain ⟨rfl, rfl, s₁, new, halloc, hmap⟩ := copyOf_cases hc
  have hres := segment_reserved h halloc hmap
  have hinside : c.dest ⊆ c.block := SegmentCopy.inside_iff.mpr (hfit hl)
  refine ⟨hinside, fun x hx => ?_, fun x hx => ?_, fun x _ hx => ?_⟩
  · exact SegmentCopy.result_of_not_mem fun hdest => hx.not_free (hres.free x (hinside hdest))
  · exact SegmentCopy.result_of_not_mem fun hdest => hres.outside x (hinside hdest) hx
  · exact SegmentCopy.result_of_not_mem fun hdest => hx (hinside hdest)

theorem copiesOf_contained (h : Space own root used s) (hfit : ∀ ph ∈ phs, ph.Fits) :
    ∀ c ∈ copiesOf root s phs, c.Contained own := by
  induction phs generalizing s used with
  | nil => simp [copiesOf]
  | cons ph phs ih =>
    have hfits : ∀ ph ∈ phs, ph.Fits := fun ph hph => hfit ph (List.mem_cons_of_mem _ hph)
    by_cases hl : ph.Loads
    · rw [copiesOf, if_pos hl]
      cases hc : copyOf root s ph with
      | none => simp
      | some c =>
        have hph : loadPhdr root s ph = some { c.mapped with ram := c.result } := by
          rw [loadPhdr_eq hl, hc, Option.map_some]
        obtain ⟨-, -, -, used', hext, -, -⟩ := loadPhdr_ok h hl (hfit ph List.mem_cons_self) hph
        rintro c' (_ | ⟨_, hc'⟩)
        · exact copyOf_contained h (hfit ph List.mem_cons_self) hl hc
        · exact ih hext.space hfits c' hc'
    · rw [copiesOf, if_neg hl]
      exact ih h hfits

theorem copiesOf_segments :
    (copiesOf root s phs).map SegmentCopy.toSegment = segmentsOf root s phs := by
  induction phs generalizing s with
  | nil => rfl
  | cons ph phs ih =>
    by_cases hl : ph.Loads
    · rw [copiesOf, if_pos hl, segmentsOf, loadPhdr_eq hl]
      cases hc : copyOf root s ph with
      | none => rfl
      | some c =>
        obtain ⟨rfl, -, s₁, new, halloc, -⟩ := copyOf_cases hc
        simp only [Option.elim_some, List.map_cons, ih, Option.map_some, if_pos hl, halloc,
          Option.toList_some, List.singleton_append]
    · rw [copiesOf, if_neg hl, segmentsOf_cons_of_not hl, ih]

theorem copies_phdrs (hload : loadAndExecuteElf new around k path = some (0, k')) :
    (k.copies new around path).map (·.phdr) = (k.vfs.turns around path).filter (·.Loads) := by
  obtain ⟨t, thread, s, henter, hseg⟩ := enterLoop_of_load hload
  rw [Kernel.copies, henter, Option.elim_some, ← segmentsOf_phdrs hseg, ← copiesOf_segments,
    List.map_map]
  rfl

/-- The loader writes only into the blocks it was given exactly when each
loadable header's `p_filesz` fits in the block made from its `p_memsz`. -/
theorem load_copies_iff (hnew : New.TakesPages own new) (hs : Sane own k.pmm) :
    ((∀ ph ∈ k.vfs.turns around path, ph.Loads → ph.pFilesz ≤ 4096 * ph.pages) →
        ∀ c ∈ k.copies new around path, c.Contained own) ∧
      ∀ k', loadAndExecuteElf new around k path = some (0, k') →
        (∀ c ∈ k.copies new around path, c.Contained own) →
          ∀ ph ∈ k.vfs.turns around path, ph.Loads → ph.pFilesz ≤ 4096 * ph.pages := by
  constructor
  · intro hfit c hc
    cases henter : k.enterLoop new around path with
    | none => simp [Kernel.copies, henter] at hc
    | some r =>
      obtain ⟨t, thread, s⟩ := r
      obtain ⟨-, -, p, s₁, s₂, hbuf, hobj, hcons⟩ := enterLoop_cases henter
      obtain ⟨hs₁, -⟩ := hnew hs hbuf
      obtain ⟨hs₂, -⟩ := hnew hs₁ hobj
      obtain ⟨-, used, stackAddr, hconstructed⟩ := Thread.construct_ok hs₂ hcons
      simp only [Kernel.copies, henter, Option.elim_some] at hc
      exact copiesOf_contained hconstructed.space hfit c hc
  · intro k' hload hcontained ph hph hl
    have hmem : ph ∈ (k.copies new around path).map (·.phdr) := by
      rw [copies_phdrs hload]
      exact List.mem_filter.mpr ⟨hph, by simpa using hl⟩
    obtain ⟨c, hc, rfl⟩ := List.mem_map.mp hmem
    exact SegmentCopy.inside_iff.mp (hcontained c hc).inside

end

theorem load_copies_iff_lowFile :
    (∃ k', loadAndExecuteElf heapWithRoom strayBytes (elfMachine lowFile) pathT = some (0, k')) ∧
      ∀ c ∈ (elfMachine lowFile).copies heapWithRoom strayBytes pathT, c.Contained elfMachineOwn :=
  ⟨lowFile_load, (load_copies_iff heapWithRoom_takesPages elfMachine_sane).1 lowFile_fits⟩

/-- A segment of a page and a byte, which is given one page. -/
def longFile : List Byte := elfFile 0x400000 4097 4097 (List.replicate 4097 1)

theorem longFile_copied : ((elfMachine longFile).vfs.fileCopy pathT).map Copy.bytes = some longFile :=
  elfMachine_copied (by decide +kernel)

theorem longFile_turns {around : Nat → Mem} :
    ∃ turn : Turn, turn.toElf64Phdr = ⟨1, 120, 0x400000, 4097, 4097⟩ ∧
    (elfMachine longFile).vfs.turns around pathT = [turn] := by
  have hphdrs : ((elfMachine longFile).vfs.turns around pathT).map Turn.toElf64Phdr =
      [⟨1, 120, 0x400000, 4097, 4097⟩] :=
    (VFS.turns_eq longFile_copied (by decide +kernel) (by decide +kernel) (by decide +kernel)).trans
      (by decide +kernel)
  obtain ⟨turn, turns, hturns, hturn, hnil⟩ := List.map_eq_cons_iff.mp hphdrs
  obtain rfl := List.map_eq_nil_iff.mp hnil
  exact ⟨turn, hturn, hturns⟩

/-- The copy of its segment goes past the block. -/
theorem longFile_not_contained :
    ((elfMachine longFile).vfs.turns strayBytes pathT).map Turn.toElf64Phdr =
      [⟨1, 120, 0x400000, 4097, 4097⟩] ∧
      ∃ c ∈ (elfMachine longFile).copies heapWithRoom strayBytes pathT, ¬c.dest ⊆ c.block := by
  obtain ⟨turn, hturn, hturns⟩ := @longFile_turns strayBytes
  have hopen : 0 ≤ ((elfMachine longFile).vfs.openFile pathT).1.toInt := by decide +kernel
  have hmagic : (readHeader ((elfMachine longFile).vfs.fileLooks strayBytes pathT 0)).eIdent =
      elfMagic :=
    (VFS.ident_eq longFile_copied (by decide +kernel) (by decide +kernel)).trans (by decide +kernel)
  have hroom : (elfMachine longFile).pmm.lastI + (elfMachine longFile).loadPages ≤ 0x8000000 := by
    rw [elfMachine_loadPages]
    show 1 + 3211334 ≤ _
    omega
  obtain ⟨t, thread, s, used, henter, hspace, hstock, hle⟩ :=
    enterLoop_isSome elfMachine_sane elfMachine_stock hopen hmagic hroom
  have hle' : s.lastI ≤ 1 + 3211334 := elfMachine_loadPages longFile ▸ hle
  have hpages : turn.pages = 1 := by
    rw [hturn]
    rfl
  obtain ⟨f, s₁, s₂, new, halloc, hmap, -, -⟩ :=
    reserve_isSome hspace hstock turn (by rw [hpages]; omega)
  have hcopy : copyOf thread.rootTable s turn = some ⟨⟨turn, f⟩, s, s₂⟩ := by
    simp only [copyOf, Option.bind_eq_bind, halloc, hmap, Option.bind_some]
  have hl : turn.Loads := by
    rw [hturn]
    decide
  have hcopies : (elfMachine longFile).copies heapWithRoom strayBytes pathT = [⟨⟨turn, f⟩, s, s₂⟩] := by
    simp only [Kernel.copies, henter, Option.elim_some, hturns, copiesOf]
    rw [if_pos hl, hcopy, Option.elim_some]
  have hlong : ¬turn.pFilesz ≤ 4096 * turn.pages := by
    rw [hturn]
    decide
  refine ⟨by rw [hturns, List.map_singleton, hturn], _, hcopies ▸ List.mem_singleton_self _, fun h => ?_⟩
  exact hlong (SegmentCopy.inside_iff.mp h)

end LimineOS
