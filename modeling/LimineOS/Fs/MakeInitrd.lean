import LimineOS.Fs.Initrd
import LimineOS.Lib.Layout

/-!
# The image tool and the mounted image

`tools/make_initrd` writes the count, one header for each file and then the
contents of all files. It never advances the offset it puts into the headers,
so that every file starts where the first one does, and the names come back
through a comparison that also takes a prefix for the name. What the
constructor reads back is `construct_main`.
-/

namespace LimineOS

open ByteMemory

-- ---------------------------------------------------------------------------
-- The tool
-- ---------------------------------------------------------------------------

/-- A file on the tool's command line. An argument has no NUL in it. -/
structure InputFile where
  path : List Byte
  contents : List Byte
  noNul : 0 ∉ path

namespace MakeInitrd

def slashes : List Byte := [0x2f, 0x5c]

def findLastOf (s chars : List Byte) : Option Nat :=
  (s.zipIdx.filter fun c => c.1 ∈ chars).getLast?.map Prod.snd

/-- `name.substr(name.find_last_of("/\\") + 1)` -/
def baseName (path : List Byte) : List Byte := path.drop ((findLastOf path slashes).elim 0 (· + 1))

/-- The `n` characters that `strncpy` writes: the string, and NULs after it. -/
def strncpy (src : CStr) : Nat → List Byte
  | 0 => []
  | n + 1 => if src 0 = 0 then List.replicate (n + 1) 0 else src 0 :: strncpy (src.skip 1) n

def fileHeader (offs size : Nat) (name : List Byte) : List Byte :=
  bytesLE 4 offs ++ (bytesLE 4 size ++ strncpy (cstr name) 64)

def dataOffset (count : Nat) : Nat := Initrd.headerSize * count + 4

/-- The file it writes; `none` where it exits without one. `offs` is not
advanced from header to header. -/
def main (files : List InputFile) : Option (List Byte) :=
  if files.length < 1 then none
  else
    let count := files.length
    let offs := dataOffset count
    some (bytesLE 4 count ++
      (files.flatMap (fun f => fileHeader offs f.contents.length (baseName f.path)) ++
        files.flatMap InputFile.contents))

end MakeInitrd

namespace InputFile

def name (f : InputFile) : List Byte := MakeInitrd.baseName f.path

theorem noNul_name (f : InputFile) : 0 ∉ f.name := fun h => f.noNul (List.mem_of_mem_drop h)

end InputFile

-- ---------------------------------------------------------------------------
-- Strings
-- ---------------------------------------------------------------------------

section
variable {x y : List Byte} {n : Nat} {b : Byte}

theorem cstr_skip : (cstr (b :: x)).skip 1 = cstr x := by
  funext i
  show (b :: x).getD (1 + i) 0 = x.getD i 0
  rw [Nat.add_comm, List.getD_cons_succ]

theorem length_strncpy (src : CStr) : (MakeInitrd.strncpy src n).length = n := by
  induction n generalizing src with
  | zero => rfl
  | succ n ih =>
    rw [MakeInitrd.strncpy]
    split_ifs
    · exact List.length_replicate
    · rw [List.length_cons, ih]

theorem getD_strncpy (hx : 0 ∉ x) (i : Nat) (hi : i < n) :
    (MakeInitrd.strncpy (cstr x) n).getD i 0 = cstr x i := by
  induction n generalizing x i with
  | zero => exact absurd hi (Nat.not_lt_zero _)
  | succ n ih =>
    cases x with
    | nil =>
      rw [MakeInitrd.strncpy, if_pos (show cstr [] 0 = 0 from rfl), List.getD_eq_getElem?_getD,
        List.getElem?_replicate_of_lt hi]
      rfl
    | cons a x =>
      rw [List.mem_cons, not_or] at hx
      have ha : cstr (a :: x) 0 = a := rfl
      rw [MakeInitrd.strncpy, ha, if_neg (Ne.symm hx.1), cstr_skip]
      cases i with
      | zero => rfl
      | succ i => exact ih hx.2 i (Nat.lt_of_succ_lt_succ hi)

end

-- ---------------------------------------------------------------------------
-- What the constructor reads
-- ---------------------------------------------------------------------------

section
variable {files : List InputFile} {f : InputFile} {img : List Byte} {mem : Mem} {address i k : Nat}

def allContents (files : List InputFile) : List Byte := files.flatMap InputFile.contents

def registered (address : Nat) (files : List InputFile) (f : InputFile) : FileInfo where
  data := address + MakeInitrd.dataOffset files.length
  size := BitVec.ofNat 32 f.contents.length
  name := cstr f.name

theorem length_fileHeader (offs size : Nat) (name : List Byte) :
    (MakeInitrd.fileHeader offs size name).length = Initrd.headerSize := by
  rw [MakeInitrd.fileHeader, List.length_append, List.length_append, length_bytesLE, length_bytesLE,
    length_strncpy]
  rfl

theorem holds_main (himg : MakeInitrd.main files = some img) (hmem : Holds mem address img) :
    Holds mem address (bytesLE 4 files.length) ∧
      Holds mem (address + 4) (files.flatMap fun f =>
        MakeInitrd.fileHeader (MakeInitrd.dataOffset files.length) f.contents.length f.name) ∧
      Holds mem (address + MakeInitrd.dataOffset files.length) (allContents files) := by
  rw [MakeInitrd.main] at himg
  split_ifs at himg
  obtain rfl := Option.some.inj himg
  rw [holds_append, holds_append, length_bytesLE,
    length_records fun f _ => length_fileHeader _ f.contents.length _] at hmem
  refine ⟨hmem.1, hmem.2.1, ?_⟩
  have hoff : address + MakeInitrd.dataOffset files.length = address + 4 + files.length *
      Initrd.headerSize := by
    rw [MakeInitrd.dataOffset, Nat.mul_comm]
    omega
  rw [hoff]
  exact hmem.2.2

theorem length_main (himg : MakeInitrd.main files = some img) :
    img.length = MakeInitrd.dataOffset files.length + (allContents files).length := by
  rw [MakeInitrd.main] at himg
  split_ifs at himg
  obtain rfl := Option.some.inj himg
  rw [List.length_append, List.length_append, length_bytesLE,
    length_records fun f _ => length_fileHeader _ f.contents.length _, MakeInitrd.dataOffset,
    Nat.mul_comm, allContents]
  omega

theorem contents_le (hf : f ∈ files) : f.contents.length ≤ (allContents files).length :=
  (List.sublist_flatten_of_mem (List.mem_map_of_mem hf)).length_le

theorem fileInfo_main (himg : MakeInitrd.main files = some img) (hmem : Holds mem address img)
    (hsize : img.length < 2 ^ 32) (hi : files[i]? = some f) (hname : f.name.length < 64) :
    Initrd.fileInfo mem address i = registered address files f := by
  have hlen := length_main himg
  have hrec := (holds_main himg hmem).2.1.record (fun f _ => length_fileHeader _ f.contents.length _) hi
  rw [MakeInitrd.fileHeader, holds_append, holds_append, length_bytesLE, length_bytesLE] at hrec
  have hcontents := contents_le (List.mem_of_getElem? hi)
  have hoffs := hrec.1.readLE
  have hsz := hrec.2.1.readLE
  rw [Nat.mod_eq_of_lt (by omega)] at hoffs hsz
  rw [Initrd.fileInfo, registered, hoffs, hsz]
  congr 1
  funext j
  by_cases hj : j < 64
  · rw [if_pos hj, ← getD_strncpy f.noNul_name j hj]
    obtain ⟨b, hb⟩ : ∃ b, (MakeInitrd.strncpy (cstr f.name) 64)[j]? = some b :=
      ⟨_, List.getElem?_eq_getElem (by rw [length_strncpy]; exact hj)⟩
    rw [List.getD_eq_getElem?_getD, hb]
    exact hrec.2.2 j b hb
  · rw [if_neg hj, cstr, List.getD_eq_getElem?_getD, List.getElem?_eq_none (by omega)]
    rfl

/-- The constructor finds every file, with its name and its size, and all data
at the same place. -/
theorem construct_main {modules : List Initrd.LimineFile} {mod : Initrd.LimineFile}
    (himg : MakeInitrd.main files = some img) (hmod : Initrd.findModule modules = some mod)
    (hmem : Holds mem mod.address img) (hsize : img.length < 2 ^ 32)
    (hnames : ∀ f ∈ files, f.name.length < 64) :
    Initrd.construct { mem } modules =
      some { mem, files := files.map (registered mod.address files) } := by
  have hne : ¬modules.length = 0 := by
    intro h0
    rw [List.length_eq_zero_iff.mp h0] at hmod
    exact absurd hmod.symm (Option.some_ne_none mod)
  have hcount := (holds_main himg hmem).1.readLE
  have hlen := length_main himg
  rw [Nat.mod_eq_of_lt (by rw [MakeInitrd.dataOffset, Initrd.headerSize] at hlen; omega)] at hcount
  rw [Initrd.construct, if_neg hne, hmod]
  dsimp only [Option.bind_eq_bind, Option.bind_some]
  rw [hcount, List.nil_append]
  congr 2
  apply List.ext_getElem?
  intro i
  rw [List.getElem?_map, List.getElem?_map]
  by_cases hi : i < files.length
  · rw [List.getElem?_range hi, List.getElem?_eq_getElem hi, Option.map_some, Option.map_some,
      fileInfo_main himg hmem hsize (List.getElem?_eq_getElem hi) (hnames _ (List.getElem_mem hi))]
  · rw [List.getElem?_eq_none (by rw [List.length_range]; omega), List.getElem?_eq_none (by omega)]
    rfl

end

end LimineOS
