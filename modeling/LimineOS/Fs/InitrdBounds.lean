import LimineOS.Fs.RoundTrip
import LimineOS.Lib.Reads

/-!
# The bounds of an image

The constructor checks nothing that it finds in the image: not the count, nor
the offsets and sizes in the headers, nor the ends of the names. What it reads
and registers stays in the module exactly when the image is `WellFormed`, which
what the tool writes is.
-/

namespace LimineOS

open ByteMemory Logged

namespace Initrd

-- ---------------------------------------------------------------------------
-- The constructor's reads
-- ---------------------------------------------------------------------------

def fileInfoL (mem : Mem) (address i : Nat) : Logged Nat FileInfo := do
  let hdr := address + 4 + i * headerSize
  let offs ← readLEL mem hdr 4
  let name ← readBytesL mem (hdr + 8) 64
  let size ← readLEL mem (hdr + 4) 4
  pure { data := address + offs, size := BitVec.ofNat 32 size, name := cstr name }

def constructL (s : Initrd) (modules : List LimineFile) : Logged Nat (Option Initrd) :=
  if modules.length = 0 then pure none
  else
    match findModule modules with
    | none => pure none
    | some initrdModule => do
      let fileCount ← readLEL s.mem initrdModule.address 4
      let files ← (List.range fileCount).foldlM (fun files i => do
        let info ← fileInfoL s.mem initrdModule.address i
        pure (files ++ [info])) s.files
      pure (some { s with files })

section
variable {s : Initrd} {mem : Mem} {modules : List LimineFile} {mod : LimineFile} {address len a i : Nat}
  {img : List Byte}

theorem fileInfoL_val : (fileInfoL mem address i).val = fileInfo mem address i := by
  simp only [fileInfoL, fileInfo, val_bind, readLEL_val, readBytesL_val, val_pure]
  congr 1
  funext j
  rw [cstr, List.getD_eq_getElem?_getD, List.getElem?_map]
  split_ifs with hj
  · rw [List.getElem?_range hj]
    rfl
  · rw [List.getElem?_eq_none (by simpa using hj)]
    rfl

theorem mem_log_fileInfoL :
    a ∈ (fileInfoL mem address i).log ↔ a ∈ span (address + 4 + i * headerSize) headerSize := by
  simp only [fileInfoL, log_bind, log_pure, List.append_nil, List.mem_append, mem_log_readLEL,
    mem_log_readBytesL, mem_span, headerSize]
  omega

theorem foldl_push {α β : Type} (f : α → β) (l : List α) (init : List β) :
    l.foldl (fun files i => files ++ [f i]) init = init ++ l.map f := by
  induction l generalizing init with
  | nil => exact (List.append_nil init).symm
  | cons a l ih => rw [List.foldl_cons, ih, List.append_assoc, List.singleton_append, List.map_cons]

theorem constructL_val : (constructL s modules).val = construct s modules := by
  unfold constructL construct
  split_ifs with hempty
  · rfl
  · cases findModule modules with
    | none => rfl
    | some mod =>
      have hstep : ∀ (files : List FileInfo) (i : Nat),
          (do let info ← fileInfoL s.mem mod.address i
              pure (files ++ [info]) :
                Logged Nat (List FileInfo)).val = files ++ [fileInfo s.mem mod.address i] := by
        intro files i
        rw [val_bind, fileInfoL_val]
        rfl
      simp only [val_bind, val_pure, readLEL_val, val_foldlM hstep, foldl_push]
      rfl

theorem mem_log_constructL (hmod : findModule modules = some mod) :
    a ∈ (constructL s modules).log ↔ a ∈ span mod.address 4 ∨
      ∃ i < readLE s.mem mod.address 4, a ∈ span (mod.address + 4 + i * headerSize) headerSize := by
  have hne : modules.length ≠ 0 := by
    intro h0
    rw [List.length_eq_zero_iff.mp h0] at hmod
    exact absurd hmod.symm (Option.some_ne_none mod)
  have hcells : ∀ (files : List FileInfo) (i a : Nat),
      a ∈ (do let info ← fileInfoL s.mem mod.address i
              pure (files ++ [info]) : Logged Nat (List FileInfo)).log ↔
        a ∈ span (mod.address + 4 + i * headerSize) headerSize := by
    intro files i a
    rw [log_bind, log_pure, List.append_nil, mem_log_fileInfoL]
  rw [constructL, if_neg hne, hmod]
  dsimp only
  rw [log_bind, log_bind, log_pure, List.append_nil, List.mem_append, mem_log_readLEL,
    mem_log_foldlM hcells, readLEL_val]
  simp only [List.mem_range]

-- ---------------------------------------------------------------------------
-- Which images are contained
-- ---------------------------------------------------------------------------

/-- All reads and all that is registered are in the module. -/
structure Contained (address len : Nat) (log : List Nat) (s : Initrd) : Prop where
  reads : ∀ a ∈ log, a ∈ span address len
  data : ∀ info ∈ s.files, address ≤ info.data ∧ info.data + info.size.toNat ≤ address + len
  names : ∀ info ∈ s.files, ∃ j < 64, info.name j = 0

/-- The header table fits, the data of every file is inside, and every name
ends in its field. -/
structure WellFormed (img : List Byte) : Prop where
  count : 4 ≤ img.length
  headers : 4 + readLE (bytesMem img) 0 4 * headerSize ≤ img.length
  data : ∀ i < readLE (bytesMem img) 0 4, readLE (bytesMem img) (4 + i * headerSize) 4 +
    readLE (bytesMem img) (4 + i * headerSize + 4) 4 ≤ img.length
  names : ∀ i < readLE (bytesMem img) 0 4, ∃ j < 64, bytesMem img (4 + i * headerSize + 8 + j) = 0

theorem header_le {n : Nat} (h : i < n) : i * headerSize + headerSize ≤ n * headerSize := by
  rw [← Nat.succ_mul]
  exact Nat.mul_le_mul_right _ h

theorem reads_iff (hmod : findModule modules = some mod) :
    (∀ a ∈ (constructL s modules).log, a ∈ span mod.address len) ↔
      4 ≤ len ∧ 4 + readLE s.mem mod.address 4 * headerSize ≤ len := by
  constructor
  · intro hreads
    have hcount := (forall_span_iff (by decide)).mp fun a ha =>
      hreads a ((mem_log_constructL hmod).mpr (.inl ha))
    refine ⟨by omega, ?_⟩
    rcases Nat.eq_zero_or_pos (readLE s.mem mod.address 4) with hzero | hpos
    · rw [hzero]
      omega
    · -- the last header
      have hlast := (forall_span_iff (by decide)).mp fun a ha =>
        hreads a ((mem_log_constructL hmod).mpr (.inr ⟨readLE s.mem mod.address 4 - 1, by omega, ha⟩))
      have hall : readLE s.mem mod.address 4 * headerSize =
          (readLE s.mem mod.address 4 - 1) * headerSize + headerSize := by
        rw [← Nat.succ_mul]
        congr 1
        omega
      omega
  · rintro ⟨hcount, hheaders⟩ a ha
    rcases (mem_log_constructL hmod).mp ha with ha | ⟨i, hi, ha⟩
    · exact span_subset (le_refl _) (by omega) ha
    · have hle := header_le hi
      exact span_subset (by omega) (by omega) ha

theorem fileInfo_image (hmem : Holds mem address img)
    (hin : 4 + i * headerSize + headerSize ≤ img.length) :
    (fileInfo mem address i).data = address + readLE (bytesMem img) (4 + i * headerSize) 4 ∧
      (fileInfo mem address i).size.toNat = readLE (bytesMem img) (4 + i * headerSize + 4) 4 ∧
      ∀ j < 64, (fileInfo mem address i).name j = bytesMem img (4 + i * headerSize + 8 + j) := by
  have hsize : headerSize = 72 := rfl
  have hhdr : address + 4 + i * headerSize = address + (4 + i * headerSize) := Nat.add_assoc _ _ _
  refine ⟨?_, ?_, fun j hj => ?_⟩
  · rw [fileInfo, hhdr, hmem.readLE_eq (by omega)]
  · rw [fileInfo, BitVec.toNat_ofNat, hhdr, Nat.add_assoc, hmem.readLE_eq (by omega)]
    exact Nat.mod_eq_of_lt (readLE_lt _ _ 4)
  · show (if j < 64 then mem (address + 4 + i * headerSize + 8 + j) else 0) = _
    rw [if_pos hj, hhdr, Nat.add_assoc, Nat.add_assoc, hmem.apply (by omega),
      Nat.add_assoc (4 + i * headerSize)]

def ofModule (mem : Mem) (mod : LimineFile) : Initrd :=
  { mem, files := (List.range (readLE mem mod.address 4)).map (fileInfo mem mod.address) }

theorem construct_eq_ofModule (hmod : findModule modules = some mod) :
    construct { mem } modules = some (ofModule mem mod) := by
  have hne : modules.length ≠ 0 := by
    intro h0
    rw [List.length_eq_zero_iff.mp h0] at hmod
    exact absurd hmod.symm (Option.some_ne_none mod)
  rw [construct, if_neg hne, hmod]
  rfl

theorem ofModule_contained_iff (hmod : findModule modules = some mod)
    (hmem : Holds mem mod.address img) :
    Contained mod.address img.length (constructL { mem } modules).log (ofModule mem mod) ↔
      WellFormed img := by
  have hfiles : ∀ {P : FileInfo → Prop},
      (∀ info ∈ (List.range (readLE mem mod.address 4)).map (fileInfo mem mod.address), P info) ↔
        ∀ i < readLE mem mod.address 4, P (fileInfo mem mod.address i) := by
    intro P
    rw [List.forall_mem_map]
    exact forall_congr' fun i => by rw [List.mem_range]
  have hcount : 4 ≤ img.length → readLE mem mod.address 4 = readLE (bytesMem img) 0 4 := fun h =>
    hmem.readLE_eq (k := 0) (by omega)
  constructor
  · rintro ⟨hreads, hdata, hnames⟩
    obtain ⟨hlen, hheaders⟩ := (reads_iff hmod).mp hreads
    have hin := fun i (hi : i < readLE mem mod.address 4) =>
      (Nat.add_assoc 4 (i * headerSize) headerSize).le.trans
        ((Nat.add_le_add_left (header_le hi) 4).trans hheaders)
    refine ⟨hlen, hcount hlen ▸ hheaders, fun i hi => ?_, fun i hi => ?_⟩
    · rw [← hcount hlen] at hi
      obtain ⟨hoffs, hsize, -⟩ := fileInfo_image hmem (hin i hi)
      have hinside := hfiles.mp hdata i hi
      omega
    · rw [← hcount hlen] at hi
      obtain ⟨-, -, hname⟩ := fileInfo_image hmem (hin i hi)
      obtain ⟨j, hj, hnul⟩ := hfiles.mp hnames i hi
      exact ⟨j, hj, (hname j hj).symm.trans hnul⟩
  · rintro ⟨hlen, hheaders, hdata, hnames⟩
    rw [← hcount hlen] at hheaders hdata hnames
    have hin := fun i (hi : i < readLE mem mod.address 4) =>
      (Nat.add_assoc 4 (i * headerSize) headerSize).le.trans
        ((Nat.add_le_add_left (header_le hi) 4).trans hheaders)
    refine ⟨(reads_iff hmod).mpr ⟨hlen, hheaders⟩, hfiles.mpr fun i hi => ?_, hfiles.mpr fun i hi => ?_⟩
    · obtain ⟨hoffs, hsize, -⟩ := fileInfo_image hmem (hin i hi)
      have hinside := hdata i hi
      omega
    · obtain ⟨-, -, hname⟩ := fileInfo_image hmem (hin i hi)
      obtain ⟨j, hj, hnul⟩ := hnames i hi
      exact ⟨j, hj, (hname j hj).trans hnul⟩

/-- The constructor stays in the module exactly on well-formed images. -/
theorem construct_contained_iff (hmod : findModule modules = some mod)
    (hmem : Holds mem mod.address img) :
    ∃ s, construct { mem } modules = some s ∧
      (Contained mod.address img.length (constructL { mem } modules).log s ↔ WellFormed img) :=
  ⟨_, construct_eq_ofModule hmod, ofModule_contained_iff hmod hmem⟩

theorem wellFormed_main {files : List InputFile} (himg : MakeInitrd.main files = some img)
    (hsize : img.length < 2 ^ 32)
    (hnames : ∀ f ∈ files, f.name.length < 64) : WellFormed img := by
  have hlen := length_main himg
  have hmem := holds_bytesMem img
  have hoffset : MakeInitrd.dataOffset files.length = 4 + files.length * headerSize := by
    rw [MakeInitrd.dataOffset, Nat.mul_comm, Nat.add_comm]
  have hcount : readLE (bytesMem img) 0 4 = files.length := by
    rw [(holds_main himg hmem).1.readLE]
    refine Nat.mod_eq_of_lt ?_
    rw [hoffset, headerSize] at hlen
    omega
  have hheader : ∀ i < files.length, ∃ f ∈ files, fileInfo (bytesMem img) 0 i = registered 0 files f ∧
      4 + i * headerSize + headerSize ≤ img.length := fun i hi => by
    have hle := header_le hi
    exact ⟨files[i], List.getElem_mem hi, fileInfo_main himg hmem hsize (List.getElem?_eq_getElem hi)
      (hnames _ (List.getElem_mem hi)), by omega⟩
  refine ⟨by omega, by rw [hcount]; omega, fun i hi => ?_, fun i hi => ?_⟩
  · obtain ⟨f, hf, hinfo, hin⟩ := hheader i (hcount ▸ hi)
    obtain ⟨hoffs, hsz, -⟩ := fileInfo_image hmem hin
    rw [hinfo] at hoffs hsz
    change 0 + MakeInitrd.dataOffset files.length = _ at hoffs
    rw [registered, BitVec.toNat_ofNat] at hsz
    have hcontents := contents_le hf
    have hmod := Nat.mod_le f.contents.length (2 ^ 32)
    omega
  · obtain ⟨f, hf, hinfo, hin⟩ := hheader i (hcount ▸ hi)
    obtain ⟨-, -, hname⟩ := fileInfo_image hmem hin
    refine ⟨f.name.length, hnames f hf, ?_⟩
    rw [← hname _ (hnames f hf), hinfo]
    exact (isStr_cstr f.noNul_name).chars _ (le_refl _) |>.trans (by simp)

end

theorem construct_contained_iff_filesAB :
    ∃ img s, MakeInitrd.main (filesAB [1, 1] [1]) = some img ∧
      construct { mem := imageMem img } [imageModule] = some s ∧
      Contained imageModule.address img.length
        (constructL { mem := imageMem img } [imageModule]).log s := by
  obtain ⟨img, himg⟩ : ∃ img, MakeInitrd.main (filesAB [1, 1] [1]) = some img := ⟨_, rfl⟩
  have hlen : img.length = 151 := by
    rw [length_main himg]
    rfl
  obtain ⟨s, hs, hiff⟩ := construct_contained_iff findModule_imageModule (holds_imageMem img)
  exact ⟨img, s, himg, hs, hiff.mpr (wellFormed_main himg (by omega) (filesAB_names _ _))⟩

def oneHeader (offs size : Nat) (name : List Byte) : List Byte :=
  bytesLE 4 1 ++ (bytesLE 4 offs ++ (bytesLE 4 size ++ name))

/-- The constructor takes the image and goes outside it. -/
def Escapes (img : List Byte) : Prop :=
  ∃ s, construct { mem := imageMem img } [imageModule] = some s ∧
    ¬Contained imageModule.address img.length (constructL { mem := imageMem img } [imageModule]).log s

theorem escapes_of_not_wellFormed {img : List Byte} (h : ¬WellFormed img) : Escapes img :=
  ⟨_, construct_eq_ofModule findModule_imageModule,
    fun hc => h ((ofModule_contained_iff findModule_imageModule (holds_imageMem img)).mp hc)⟩

/-- An empty module, a file whose data lies far outside, and a name without a
NUL. -/
theorem not_contained : Escapes [] ∧ Escapes (oneHeader 0xffffffff 1 (List.replicate 64 0)) ∧
    Escapes (oneHeader 76 0 (List.replicate 64 0x61)) := by
  refine ⟨escapes_of_not_wellFormed fun h => absurd h.count (by decide),
    escapes_of_not_wellFormed fun h => absurd (h.data 0 (by decide)) (by decide),
    escapes_of_not_wellFormed fun h => ?_⟩
  obtain ⟨j, hj, hnul⟩ := h.names 0 (by decide)
  revert j
  decide

end Initrd

end LimineOS
