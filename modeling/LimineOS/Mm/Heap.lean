import LimineOS.Lib.Fuel
import LimineOS.Mm.Pmm

/-!
# The kernel heap

`malloc`, `free`, `calloc` and `realloc` of `liballoc.cpp`, and with them `new`
and `delete`. A block starts with a boundary tag of 48 bytes, which is in RAM
like the block itself; a pointer to a tag is its address, and the null pointer is 0.
The locks do nothing. Where the page allocator halts the kernel, so does `malloc`.
-/

namespace LimineOS

open ByteMemory Fueled

def u32 (n : Nat) : Nat := n % 2 ^ 32

def signExtend32 (n : Nat) : Nat := if n < 2 ^ 31 then n else n + (2 ^ 64 - 2 ^ 32)

def liballocMagic : Nat := 0xc001c0de
def maxComplete : Int := 5
def maxExp : Nat := 32
def minExp : Nat := 8

def pageSize : Nat := 4096

def pageCount : Nat := 16

inductive BoundaryTag
  | magic | size | realSize | index | splitLeft | splitRight | next | prev
  deriving DecidableEq, Repr

namespace BoundaryTag

def offset : BoundaryTag → Nat
  | magic => 0
  | size => 4
  | realSize => 8
  | index => 12
  | splitLeft => 16
  | splitRight => 24
  | next => 32
  | prev => 40

def width : BoundaryTag → Nat
  | magic | size | realSize | index => 4
  | splitLeft | splitRight | next | prev => 8

def sizeof : Nat := 48

/-- The index of a tag in no list, the `int` -1. An index is negative from 2 ^ 31 on. -/
def noIndex : Nat := 2 ^ 32 - 1

end BoundaryTag

open BoundaryTag (sizeof noIndex)

-- ---------------------------------------------------------------------------
-- Exponents
-- ---------------------------------------------------------------------------

/-- The loop of `getexp`, with `left` values of `shift` below `MAXEXP`. -/
def getexpShift (size : Nat) : Nat → Nat → Nat
  | 0, shift => shift
  | left + 1, shift => if 1 <<< shift > size then shift else getexpShift size left (shift + 1)

def getexp (size : Nat) : Int :=
  if size < 1 <<< minExp then -1 else getexpShift size (maxExp - minExp) minExp - 1

/-- `getexp`, raised to `MINEXP`. -/
def exponent (size : Nat) : Nat := if getexp size < minExp then minExp else (getexp size).toNat

-- ---------------------------------------------------------------------------
-- Memory
-- ---------------------------------------------------------------------------

/-- Words of four bytes first, then bytes. -/
def liballocMemcpy (ram : Mem) (s1 s2 : Nat) : Nat → Mem
  | n + 4 => liballocMemcpy (writeLE ram s1 4 (readLE ram s2 4)) (s1 + 4) (s2 + 4) n
  | n => memcpy ram s1 s2 n

structure Heap where
  pmm : PhysicalMemory
  /-- `l_freePages` -/
  freePages : Nat → Nat := fun _ => 0
  /-- `l_completePages` -/
  completePages : Nat → Int := fun _ => 0
  /-- `l_initialized` -/
  initialized : Bool := false

namespace Heap

def get (s : Heap) (f : BoundaryTag) (tag : Nat) : Nat := readLE s.pmm.ram (tag + f.offset) f.width

def setRam (s : Heap) (ram : Mem) : Heap := { s with pmm := { s.pmm with ram } }

def set (s : Heap) (f : BoundaryTag) (tag v : Nat) : Heap :=
  s.setRam (writeLE s.pmm.ram (tag + f.offset) f.width v)

def setLink (s : Heap) (f : BoundaryTag) (tag v : Nat) : Heap := if tag ≠ 0 then s.set f tag v else s

-- ---------------------------------------------------------------------------
-- Helper functions
-- ---------------------------------------------------------------------------

def exponentAt (s : Heap) (tag : Nat) : Nat := exponent (u32 (subU64 (s.get .realSize tag) sizeof))

def insertTag (s : Heap) (tag : Nat) (index : Int) : Heap :=
  let realIndex := if index < 0 then s.exponentAt tag else index.toNat
  let s := s.set .index tag realIndex
  let s :=
    if s.freePages realIndex ≠ 0 then
      let s := s.set .prev (s.freePages realIndex) tag
      s.set .next tag (s.freePages realIndex)
    else s
  { s with freePages := Function.update s.freePages realIndex tag }

def unhead (s : Heap) (tag : Nat) : Heap :=
  if s.freePages (s.get .index tag) = tag then
    { s with freePages := Function.update s.freePages (s.get .index tag) (s.get .next tag) }
  else s

def removeTag (s : Heap) (tag : Nat) : Heap :=
  let s := s.unhead tag
  let s := s.setLink .next (s.get .prev tag) (s.get .next tag)
  let s := s.setLink .prev (s.get .next tag) (s.get .prev tag)
  let s := s.set .next tag 0
  let s := s.set .prev tag 0
  s.set .index tag noIndex

/-- `tag` takes over the block of `right` and its right link. -/
def absorb (s : Heap) (tag right : Nat) : Heap :=
  let s := s.set .realSize tag (s.get .realSize tag + s.get .realSize right)
  let s := s.set .splitRight tag (s.get .splitRight right)
  s.setLink .splitLeft (s.get .splitRight right) tag

def meltLeft (s : Heap) (tag : Nat) : Nat × Heap :=
  let left := s.get .splitLeft tag
  (left, s.absorb left tag)

def absorbRight (s : Heap) (tag : Nat) : Nat × Heap :=
  let right := s.get .splitRight tag
  (tag, (s.removeTag right).absorb tag right)

/-- `splitTag` up to the insertion of the new tag. -/
def divide (s : Heap) (tag newTag remainder : Nat) : Heap :=
  let s := s.set .magic newTag liballocMagic
  let s := s.set .realSize newTag remainder
  let s := s.set .next newTag 0
  let s := s.set .prev newTag 0
  let s := s.set .splitLeft newTag tag
  let s := s.set .splitRight newTag (s.get .splitRight tag)
  let s := s.setLink .splitLeft (s.get .splitRight newTag) newTag
  let s := s.set .splitRight tag newTag
  s.set .realSize tag (u32 (subU64 (s.get .realSize tag) (s.get .realSize newTag)))

def splitTag (s : Heap) (tag : Nat) : Nat × Heap :=
  let remainder := u32 (subU64 (subU64 (s.get .realSize tag) sizeof) (s.get .size tag))
  let newTag := u64 (tag + sizeof + s.get .size tag)
  (newTag, (s.divide tag newTag remainder).insertTag newTag (-1))

def pagesFor (bytes : Nat) : Nat :=
  let pages := if bytes % pageSize ≠ 0 then bytes / pageSize + 1 else bytes / pageSize
  if pages < pageCount then pageCount else pages

def stamp (s : Heap) (tag size pages : Nat) : Heap :=
  let s := s.set .magic tag liballocMagic
  let s := s.set .size tag size
  let s := s.set .realSize tag (pages * pageSize)
  let s := s.set .index tag noIndex
  let s := s.set .next tag 0
  let s := s.set .prev tag 0
  let s := s.set .splitLeft tag 0
  s.set .splitRight tag 0

/-- There is no null pointer to return: `liballoc_alloc` halts where no pages are left. -/
def allocateNewTag (s : Heap) (size : Nat) : Option (Nat × Heap) :=
  let pages := pagesFor (u32 (size + sizeof))
  (s.pmm.alloc pages).map fun (tag, pmm) => (tag, { s with pmm }.stamp tag size pages)

-- ---------------------------------------------------------------------------
-- malloc
-- ---------------------------------------------------------------------------

def setUp (s : Heap) : Heap :=
  if s.initialized then s
  else { s with freePages := fun _ => 0, completePages := fun _ => 0, initialized := true }

/-- One test of the search. Nothing has been found at the null pointer. -/
def searchStep (s : Heap) (size tag : Nat) : Nat ⊕ Nat :=
  if tag = 0 then .inr 0
  else if subU64 (s.get .realSize tag) sizeof ≥ u64 (size + sizeof) then .inr tag
  else .inl (s.get .next tag)

def search (s : Heap) (size tag : Nat) : Fueled Nat := iterate (s.searchStep size) tag

def Whole (s : Heap) (tag : Nat) : Prop := s.get .splitLeft tag = 0 ∧ s.get .splitRight tag = 0

instance (s : Heap) (tag : Nat) : Decidable (s.Whole tag) := inferInstanceAs (Decidable (_ ∧ _))

def countComplete (s : Heap) (index : Nat) (d : Int) : Heap :=
  { s with completePages := Function.update s.completePages index (s.completePages index + d) }

def claim (s : Heap) (tag index : Nat) : Heap :=
  let s := s.removeTag tag
  if s.Whole tag then s.countComplete index (-1) else s

/-- The tag gets its size, and what it does not need becomes a tag of its own. -/
def trim (s : Heap) (tag size : Nat) : Heap :=
  let s := s.set .size tag size
  let remainder := u32 (subU64 (subU64 (s.get .realSize tag) size) (sizeof * 2))
  if 0 < remainder ∧ remainder < 2 ^ 31 ∧ 0 ≤ getexp remainder then (s.splitTag tag).2 else s

def malloc (s : Heap) (size : Nat) : Fueled (Nat × Heap) := do
  let s := s.setUp
  let index := exponent (u32 size)
  let tag ← s.search size (s.freePages index)
  if tag = 0 then
    let (tag, s) ← ofOption (s.allocateNewTag (u32 size))
    pure (tag + sizeof, s.trim tag size)
  else
    pure (tag + sizeof, (s.claim tag index).trim tag size)

-- ---------------------------------------------------------------------------
-- free
-- ---------------------------------------------------------------------------

def IsFree (s : Heap) (tag : Nat) : Prop := tag ≠ 0 ∧ s.get .index tag < 2 ^ 31

instance (s : Heap) (tag : Nat) : Decidable (s.IsFree tag) := inferInstanceAs (Decidable (_ ∧ _))

def meltStep : Nat × Heap → (Nat × Heap) ⊕ (Nat × Heap)
  | (tag, s) =>
    if s.IsFree (s.get .splitLeft tag) then
      let (tag, s) := s.meltLeft tag
      .inl (tag, s.removeTag tag)
    else .inr (tag, s)

def absorbStep : Nat × Heap → (Nat × Heap) ⊕ (Nat × Heap)
  | (tag, s) => if s.IsFree (s.get .splitRight tag) then .inl (s.absorbRight tag) else .inr (tag, s)

/-- A tag goes back to its list, or a block that is whole to the page allocator if
too many like it are standing by. -/
def giveBack (s : Heap) (tag : Nat) : Heap :=
  let index := s.exponentAt tag
  if s.Whole tag then
    if s.completePages index = maxComplete then
      { s with pmm := s.pmm.free tag (pagesFor (s.get .realSize tag)) }
    else (s.countComplete index 1).insertTag tag index
  else s.insertTag tag index

def free (s : Heap) (ptr : Nat) : Fueled Heap := do
  let tag := subU64 ptr sizeof
  if ptr = 0 then pure s
  else if s.get .magic tag ≠ liballocMagic then pure s
  else
    let (tag, s) ← iterate meltStep (tag, s)
    let (tag, s) ← iterate absorbStep (tag, s)
    pure (s.giveBack tag)

-- ---------------------------------------------------------------------------
-- calloc and realloc
-- ---------------------------------------------------------------------------

def calloc (s : Heap) (nobj size : Nat) : Fueled (Nat × Heap) := do
  let realSize := signExtend32 (u32 (nobj * size))
  let (p, s) ← s.malloc realSize
  pure (p, s.setRam (memset s.pmm.ram p 0 realSize))

def realloc (s : Heap) (p size : Nat) : Fueled (Nat × Heap) := do
  if size = 0 then
    let s ← s.free p
    pure (0, s)
  else if p = 0 then s.malloc size
  else
    let realSize := signExtend32 (s.get .size (subU64 p sizeof))
    let realSize := if realSize > size then signExtend32 (u32 size) else realSize
    let (ptr, s) ← s.malloc size
    let s ← (s.setRam (liballocMemcpy s.pmm.ram ptr p realSize)).free p
    pure (ptr, s)

end Heap

end LimineOS
