import LimineOS.Fs.MakeInitrd

/-!
# From the tool to the reader

A round trip takes files through the image tool, the initrd's constructor,
`open` by name and `read`. Every file starts at the start of all contents, so
its bytes come back only if all contents start with them; and `open` takes the
first file whose name is a prefix of the path or extends it, which must not be
smaller than the file that was meant (`roundTrip_iff`).
-/

namespace LimineOS

open ByteMemory

def TakenFor (f g : InputFile) : Prop := g.name <+: f.name ∨ f.name <+: g.name

instance (f : InputFile) : DecidablePred (TakenFor f) := fun g =>
  inferInstanceAs (Decidable (g.name <+: f.name ∨ f.name <+: g.name))

def Initrd.readBack (s : Initrd) (f : InputFile) : BitVec 64 × Option Copy :=
  let opened := s.openFile (cstr f.name)
  (opened.2.read opened.1 (BitVec.ofNat 64 f.contents.length)).1

/-- The files are registered in order, each with its name, size and bytes, and
each is what reading by its name returns. -/
structure RoundTrip (files : List InputFile) (s : Initrd) : Prop where
  count : s.files.length = files.length
  registers : ∀ (i : Nat) (f : InputFile), files[i]? = some f → ∃ info, s.files[i]? = some info ∧
    info.name = cstr f.name ∧ info.size.toNat = f.contents.length ∧
    copyBytes s.mem info.data f.contents.length = f.contents
  reads : ∀ f ∈ files, s.readBack f =
    (BitVec.ofNat 64 f.contents.length, some ⟨0, BitVec.ofNat 64 f.contents.length, f.contents⟩)

section
variable {files : List InputFile} {f g : InputFile} {img : List Byte} {mem : Mem} {address i n : Nat}

def registeredInitrd (mem : Mem) (address : Nat) (files : List InputFile) : Initrd :=
  { mem, files := files.map (registered address files) }

theorem lookup_registered (hname : f.name.length < 64) :
    (registeredInitrd mem address files).lookup (cstr f.name) = files.findIdx? fun g =>
      TakenFor f g := by
  rw [Initrd.lookup, registeredInitrd, List.findIdx?_map]
  congr 1
  funext g
  rw [Function.comp_apply, decide_eq_decide]
  exact strncmp_iff (isStr_cstr g.noNul_name) (isStr_cstr f.noNul_name) (by omega)

theorem copyBytes_main (himg : MakeInitrd.main files = some img) (hmem : Holds mem address img)
    (haddr : address + img.length ≤ 2 ^ 64) (hn : n ≤ (allContents files).length) :
    copyBytes mem (address + MakeInitrd.dataOffset files.length) n = (allContents files).take n := by
  have hlen := length_main himg
  rw [← (holds_main himg hmem).2.2.map_range hn, copyBytes]
  refine List.map_congr_left fun i hi => ?_
  rw [List.mem_range] at hi
  rw [u64_of_lt (by omega)]

theorem openFile_registered (mem : Mem) (address : Nat) (hf : f ∈ files) (hname : f.name.length < 64) :
    ∃ i g, files.find? (fun g => TakenFor f g) = some g ∧ g ∈ files ∧
      ((registeredInitrd mem address files).openFile (cstr f.name)).1 = 0 ∧
      ((registeredInitrd mem address files).openFile (cstr f.name)).2.info 0 =
        some (i, registered address files g) ∧
      ((registeredInitrd mem address files).openFile (cstr f.name)).2.mem = mem := by
  have hsome : (files.find? fun g => TakenFor f g).isSome := by
    rw [List.find?_isSome]
    exact ⟨f, hf, decide_eq_true (.inl (List.prefix_refl _))⟩
  obtain ⟨g, hg⟩ := Option.isSome_iff_exists.mp hsome
  have hidx := hg
  rw [List.find?_eq_bind_findIdx?_getElem?] at hidx
  obtain ⟨i, hi, hget⟩ := Option.bind_eq_some_iff.mp hidx
  have hlookup : (registeredInitrd mem address files).lookup (cstr f.name) = some i :=
    (lookup_registered hname).trans hi
  refine ⟨i, g, hg, List.mem_of_find?_eq_some hg, ?_⟩
  rw [Initrd.openFile_of_lookup hlookup]
  refine ⟨rfl, ?_, rfl⟩
  rw [Initrd.info_eq]
  have hfd : (registeredInitrd mem address files).curFd = 0 := rfl
  dsimp only
  rw [UnorderedMap.get_put, hfd, if_pos rfl, Option.bind_some, Initrd.setPos_files]
  show Option.map _ (Option.map _ (files.map (registered address files))[i]?) = _
  rw [List.getElem?_map, hget, Option.map_some, Option.map_some, Option.map_some, if_pos rfl]
  rfl

theorem readBack_registered (himg : MakeInitrd.main files = some img) (hmem : Holds mem address img)
    (hsize : img.length < 2 ^ 32) (haddr : address + img.length ≤ 2 ^ 64) (hf : f ∈ files)
    (hname : f.name.length < 64) :
    ∃ g, files.find? (fun g => TakenFor f g) = some g ∧
      (registeredInitrd mem address files).readBack f =
        if f.contents.length ≤ g.contents.length then
          (BitVec.ofNat 64 f.contents.length,
            some ⟨0, BitVec.ofNat 64 f.contents.length, (allContents files).take f.contents.length⟩)
        else (-1, none) := by
  obtain ⟨i, g, hfind, hg, hfd, hinfo, hmem'⟩ := openFile_registered mem address hf hname
  have hlen := length_main himg
  have hflen := contents_le hf
  have hglen := contents_le hg
  refine ⟨g, hfind, ?_⟩
  have hcheck : BitVec.ofNat 64 f.contents.length + (0 : BitVec 64) >
      (BitVec.ofNat 32 g.contents.length).setWidth 64 ↔ ¬f.contents.length ≤ g.contents.length := by
    have hadd : BitVec.ofNat 64 f.contents.length + (0 : BitVec 64) =
        BitVec.ofNat 64 f.contents.length :=
      BitVec.add_zero _
    rw [gt_iff_lt, BitVec.lt_def, hadd, BitVec.toNat_setWidth, BitVec.toNat_ofNat, BitVec.toNat_ofNat]
    omega
  have hdata : address + MakeInitrd.dataOffset files.length ≠ 0 := by
    rw [MakeInitrd.dataOffset]
    omega
  rw [Initrd.readBack, hfd, Initrd.read, hinfo]
  dsimp only [registered]
  by_cases hle : f.contents.length ≤ g.contents.length
  · rw [if_neg (mt hcheck.mp (not_not_intro hle)), if_neg hdata, if_pos hle, hmem', BitVec.toNat_ofNat,
      Nat.mod_eq_of_lt (by omega)]
    rw [← copyBytes_main himg hmem haddr hflen]
    rfl
  · rw [if_pos (hcheck.mpr hle), if_neg hle]

end

/-- Mounting what the tool writes gives back exactly the files that went in,
under exactly two conditions: all contents together start with the contents of
each file, and no file is found in place of a larger one. -/
theorem roundTrip_iff {files : List InputFile} {img : List Byte} {mem : Mem}
    {modules : List Initrd.LimineFile}
    {mod : Initrd.LimineFile} (himg : MakeInitrd.main files = some img) (hsize : img.length < 2 ^ 32)
    (hnames : ∀ f ∈ files, f.name.length < 64) (hmod : Initrd.findModule modules = some mod)
    (hmem : Holds mem mod.address img) (haddr : mod.address + img.length ≤ 2 ^ 64) :
    ∃ s, Initrd.construct { mem } modules = some s ∧
      (RoundTrip files s ↔
        (∀ f ∈ files, f.contents <+: allContents files) ∧
          ∀ f ∈ files, ∀ g, files.find? (fun g => TakenFor f g) = some g →
            f.contents.length ≤ g.contents.length) := by
  refine ⟨registeredInitrd mem mod.address files, construct_main himg hmod hmem hsize hnames, ?_⟩
  have hlen := length_main himg
  have hread := fun f hf => readBack_registered himg hmem hsize haddr hf (hnames f hf)
  constructor
  · intro h
    refine ⟨fun f hf => ?_, fun f hf g hg => ?_⟩
    · obtain ⟨i, hi⟩ := List.mem_iff_getElem?.mp hf
      obtain ⟨info, hinfo, -, -, hbytes⟩ := h.registers i f hi
      rw [registeredInitrd, List.getElem?_map, hi, Option.map_some] at hinfo
      obtain rfl := Option.some.inj hinfo
      rw [registered, registeredInitrd, copyBytes_main himg hmem haddr (contents_le hf)] at hbytes
      exact hbytes ▸ List.take_prefix _ _
    · obtain ⟨g', hg', hback⟩ := hread f hf
      obtain rfl := Option.some.inj (hg'.symm.trans hg)
      by_contra hlt
      rw [if_neg hlt, h.reads f hf] at hback
      exact absurd (congrArg Prod.snd hback) (by simp)
  · rintro ⟨hpre, hlarge⟩
    have htake : ∀ f ∈ files, (allContents files).take f.contents.length = f.contents := fun f hf =>
      (List.prefix_iff_eq_take.mp (hpre f hf)).symm
    refine ⟨List.length_map _, fun i f hi => ?_, fun f hf => ?_⟩
    · have hf := List.mem_of_getElem? hi
      have hcontents := contents_le hf
      refine ⟨registered mod.address files f, ?_, rfl, ?_, ?_⟩
      · rw [registeredInitrd, List.getElem?_map, hi, Option.map_some]
      · rw [registered, BitVec.toNat_ofNat, Nat.mod_eq_of_lt (by omega)]
      · exact (copyBytes_main himg hmem haddr hcontents).trans (htake f hf)
    · obtain ⟨g, hg, hback⟩ := hread f hf
      rw [hback, if_pos (hlarge f hf g hg), htake f hf]

def imageMem (img : List Byte) : Mem := fun x => img.getD (x - 4096) 0

def imageModule : Initrd.LimineFile := ⟨4096, cstr Initrd.initrdName⟩

theorem findModule_imageModule : Initrd.findModule [imageModule] = some imageModule := rfl

theorem holds_imageMem (img : List Byte) : Holds (imageMem img) imageModule.address img := by
  intro i b hb
  rw [imageMem, imageModule, Nat.add_sub_cancel_left, List.getD_eq_getElem?_getD, hb]
  rfl

def filesAB (a b : List Byte) : List InputFile := [⟨[0x61], a, by decide⟩, ⟨[0x62], b, by decide⟩]

theorem filesAB_names (a b : List Byte) : ∀ f ∈ filesAB a b, f.name.length < 64 := by
  intro f hf
  rcases List.mem_cons.mp hf with rfl | hf
  · show (MakeInitrd.baseName [0x61]).length < 64
    decide
  · obtain rfl := List.mem_singleton.mp hf
    show (MakeInitrd.baseName [0x62]).length < 64
    decide

theorem roundTrip_iff_filesAB :
    ∃ img s, MakeInitrd.main (filesAB [1, 1] [1]) = some img ∧
      Initrd.construct { mem := imageMem img } [imageModule] = some s ∧
      RoundTrip (filesAB [1, 1] [1]) s := by
  obtain ⟨img, himg⟩ : ∃ img, MakeInitrd.main (filesAB [1, 1] [1]) = some img := ⟨_, rfl⟩
  have hlen : img.length = 151 := by
    rw [length_main himg]
    rfl
  obtain ⟨s, hs, hiff⟩ := roundTrip_iff himg (by omega) (filesAB_names _ _) findModule_imageModule
    (holds_imageMem img) (by rw [hlen]; decide)
  refine ⟨img, s, himg, hs, hiff.mpr (by decide)⟩

/-- The bytes of `b` come back as those of `a`. -/
theorem filesAB_not_roundTrip :
    ((filesAB [1] [2]).map InputFile.name).Nodup ∧
      ∃ img s, MakeInitrd.main (filesAB [1] [2]) = some img ∧
      Initrd.construct { mem := imageMem img } [imageModule] = some s ∧
      (∃ info, s.files[1]? = some info ∧ copyBytes s.mem info.data 1 = [1]) ∧
      ¬RoundTrip (filesAB [1] [2]) s := by
  obtain ⟨img, himg⟩ : ∃ img, MakeInitrd.main (filesAB [1] [2]) = some img := ⟨_, rfl⟩
  have hlen : img.length = 150 := by
    rw [length_main himg]
    rfl
  have hbytes : copyBytes (imageMem img) (4096 + MakeInitrd.dataOffset 2) 1 = [1] :=
    copyBytes_main himg (holds_imageMem img) (by rw [hlen]; decide) (by decide)
  refine ⟨by decide, img, _, himg,
    construct_main himg findModule_imageModule (holds_imageMem img) (by omega) (filesAB_names _ _),
    ⟨_, rfl, hbytes⟩, fun h => ?_⟩
  obtain ⟨info, hinfo, -, -, hcopy⟩ := h.registers 1 _ rfl
  obtain rfl := Option.some.inj hinfo
  exact absurd (hbytes.symm.trans hcopy) (by decide)

end LimineOS
