import LimineOS.Mm.PmmRuns
import LimineOS.Lib.TableTree

/-!
# Page tables

The four-level tables of `mm/vmm.h` in physical memory and `MapPage` over
them. A table is named by its physical address. `MapPage` runs on the
allocator's state, which owns the memory, and also returns the frames it took
for new tables. `walk` is what the processor does with the tables.
-/

namespace LimineOS

open ByteMemory TableTree

namespace PageFlags

def present : BitVec 64 := 1
def readwrite : BitVec 64 := 2
def user : BitVec 64 := 4
def pagewritethrough : BitVec 64 := 8
def cachedisable : BitVec 64 := 16
def xd : BitVec 64 := 0x8000000000000000

def all : BitVec 64 := present ||| readwrite ||| user ||| pagewritethrough ||| cachedisable ||| xd

end PageFlags

def flagMask : BitVec 64 := 0x800000000000007F

namespace VirtualMemory

-- `(vaddr >> 39) & 0x1ff` and so on, as indices of a table
def pml4index (vaddr : BitVec 64) : Fin 512 := ⟨vaddr.toNat / 2 ^ 39 % 512, Nat.mod_lt _ (by decide)⟩
def dirptrindex (vaddr : BitVec 64) : Fin 512 := ⟨vaddr.toNat / 2 ^ 30 % 512, Nat.mod_lt _ (by decide)⟩
def dirindex (vaddr : BitVec 64) : Fin 512 := ⟨vaddr.toNat / 2 ^ 21 % 512, Nat.mod_lt _ (by decide)⟩
def tableindex (vaddr : BitVec 64) : Fin 512 := ⟨vaddr.toNat / 2 ^ 12 % 512, Nat.mod_lt _ (by decide)⟩

def entry (ram : Mem) (table : Nat) (index : Fin 512) : BitVec 64 :=
  BitVec.ofNat 64 (readLE ram (table + 8 * index) 8)

def setEntry (ram : Mem) (table : Nat) (index : Fin 512) (e : BitVec 64) : Mem :=
  writeLE ram (table + 8 * index) 8 e.toNat

def entryAddr (e : BitVec 64) : Nat := (e &&& ~~~flagMask).toNat

/-- The repeated step of `MapPage`: where entry `index` of `table` is zero, a
new zeroed table goes below it. Returns the table below and the frames taken. -/
def ensureTable (s : PhysicalMemory) (table : Nat) (index : Fin 512) :
    Option (PhysicalMemory × Nat × List Nat) :=
  if entry s.ram table index = 0 then
    (s.alloc 1).map fun (addr, s) =>
      let e := BitVec.ofNat 64 addr ||| (PageFlags.present ||| PageFlags.readwrite ||| PageFlags.user)
      let ram := setEntry (memset s.ram addr 0 4096) table index e
      ({ s with ram }, entryAddr (entry ram table index), [addr])
  else
    some (s, entryAddr (entry s.ram table index), [])

/-- `none` when an allocation halts the machine. -/
def mapPage (s : PhysicalMemory) (root : Nat) (vaddr paddr flags : BitVec 64) :
    Option (PhysicalMemory × List Nat) := do
  let (s, pdpt, new₁) ← ensureTable s root (pml4index vaddr)
  let (s, pdt, new₂) ← ensureTable s pdpt (dirptrindex vaddr)
  let (s, pt, new₃) ← ensureTable s pdt (dirindex vaddr)
  some ({ s with ram := setEntry s.ram pt (tableindex vaddr) (paddr ||| flags) }, new₁ ++ new₂ ++ new₃)

-- ---------------------------------------------------------------------------
-- The processor's walk
-- ---------------------------------------------------------------------------

def next (e : BitVec 64) : Option Nat :=
  if e &&& PageFlags.present = 0 then none else some (entryAddr e)

def indices (vaddr : BitVec 64) : List (Fin 512) :=
  [pml4index vaddr, dirptrindex vaddr, dirindex vaddr, tableindex vaddr]

/-- The flags an access is checked against at every level. -/
def permMask : BitVec 64 := PageFlags.present ||| PageFlags.readwrite ||| PageFlags.user

/-- What a walk finds: the leaf entry, and the permissions that all levels grant. -/
structure Translation where
  leaf : BitVec 64
  perms : BitVec 64
  deriving DecidableEq, Repr

def Translation.ofTrail (es : List (BitVec 64)) : Translation :=
  ⟨es.getLastD 0, es.foldl (· &&& ·) permMask⟩

def walk (ram : Mem) (root : Nat) (vaddr : BitVec 64) : Option Translation :=
  (trail next (entry ram) root (indices vaddr)).map .ofTrail

/-- The levels below `table` on a path of indices that have no table yet. -/
def missingTables (ram : Mem) (table : Nat) : List (Fin 512) → Nat
  | [] => 0
  | i :: is =>
    if entry ram table i = 0 then is.length + 1
      else missingTables ram (entryAddr (entry ram table i)) is

-- ---------------------------------------------------------------------------
-- Addresses and flags
-- ---------------------------------------------------------------------------

def SamePage (v w : BitVec 64) : Prop := v.toNat / 2 ^ 12 % 2 ^ 36 = w.toNat / 2 ^ 12 % 2 ^ 36

instance (v w : BitVec 64) : Decidable (SamePage v w) := inferInstanceAs (Decidable (_ = _))

theorem indices_eq_iff {v w : BitVec 64} : indices v = indices w ↔ SamePage v w := by
  simp only [indices, pml4index, dirptrindex, dirindex, tableindex, List.cons.injEq, and_true,
    Fin.mk.injEq, SamePage]
  omega

theorem and_flagMask {p : BitVec 64} (h : 4096 ∣ p.toNat) (hp : p.toNat < 2 ^ 63) :
    p &&& flagMask = 0 := by
  have hmask : ∀ i : Fin 64, flagMask.getLsbD i = true → i < 12 ∨ i = 63 := by decide
  refine BitVec.eq_of_getLsbD_eq fun i hi => ?_
  have hzero : (0 : BitVec 64).getLsbD i = false := BitVec.getLsbD_zero
  rw [BitVec.getLsbD_and, hzero, Bool.and_eq_false_imp]
  intro hbit
  by_contra hm
  rw [Bool.not_eq_false] at hm
  rcases hmask ⟨i, hi⟩ hm with hlow | htop
  · obtain ⟨k, hk⟩ := h
    have hlow' : i < 12 := hlow
    rw [BitVec.getLsbD, hk, show 4096 = 2 ^ 12 from rfl, Nat.testBit_two_pow_mul] at hbit
    simp [Nat.not_le.mpr hlow'] at hbit
  · have htop' : i = 63 := Fin.mk.inj_iff.mp htop
    subst htop'
    rw [BitVec.getLsbD, Nat.testBit_lt_two_pow hp] at hbit
    simp at hbit

theorem entryAddr_or {p flags : BitVec 64} (hp : p &&& flagMask = 0) (hf : flags &&& flagMask = flags) :
    entryAddr (p ||| flags) = p.toNat := by
  have hbits : (p ||| flags) &&& ~~~flagMask = p := by
    rw [← hf]
    refine BitVec.eq_of_getLsbD_eq fun i hi => ?_
    have hpi : (p.getLsbD i && flagMask.getLsbD i) = false := by
      rw [← BitVec.getLsbD_and, hp]
      exact BitVec.getLsbD_zero
    rw [BitVec.getLsbD_and, BitVec.getLsbD_or, BitVec.getLsbD_and, BitVec.getLsbD_not]
    cases hm : flagMask.getLsbD i <;> simp_all
  rw [entryAddr, hbits]

theorem entryAddr_ofNat {a : Nat} {flags : BitVec 64} (ha : 4096 ∣ a) (hlt : a < 2 ^ 63)
    (hf : flags &&& flagMask = flags) : entryAddr (BitVec.ofNat 64 a ||| flags) = a := by
  have hnat : (BitVec.ofNat 64 a).toNat = a := by rw [BitVec.toNat_ofNat, Nat.mod_eq_of_lt (by omega)]
  rw [entryAddr_or (and_flagMask (by rwa [hnat]) (by rwa [hnat])) hf, hnat]

-- ---------------------------------------------------------------------------
-- Entries in memory
-- ---------------------------------------------------------------------------

section
variable {ram ram' : Mem} {a b : Nat} {i j : Fin 512} {e : BitVec 64}

abbrev frame (a : Nat) : Set Nat := span a 4096

theorem frame_disjoint (ha : 4096 ∣ a) (hb : 4096 ∣ b) (hne : a ≠ b) :
    Disjoint (frame a) (frame b) := by
  obtain ⟨m, rfl⟩ := ha
  obtain ⟨n, rfl⟩ := hb
  exact span_disjoint (by omega)

theorem entry_congr (h : Set.EqOn ram' ram (frame a)) : entry ram' a i = entry ram a i := by
  rw [entry, entry, readLE_congr (h.mono (span_subset (by omega) (by omega)))]

theorem entry_zero (h : ∀ x ∈ frame a, ram x = 0) : entry ram a i = 0 := by
  have hspan : span (a + 8 * i) 8 ⊆ frame a := span_subset (by omega) (by omega)
  rw [entry, readLE_eq_zero fun x hx => h x (hspan hx)]
  rfl

theorem entry_setEntry_self : entry (setEntry ram a i e) a i = e := by
  have he : e.toNat % 256 ^ 8 = e.toNat := Nat.mod_eq_of_lt e.isLt
  rw [entry, setEntry, readLE_writeLE_self, he, BitVec.ofNat_toNat, BitVec.setWidth_eq]

theorem setEntry_eqOn : Set.EqOn (setEntry ram a i e) ram (frame a)ᶜ := by
  have hspan : span (a + 8 * i) 8 ⊆ frame a := span_subset (by omega) (by omega)
  exact (writeLE_eqOn ..).mono (Set.compl_subset_compl.mpr hspan)

theorem entry_setEntry_of_ne (ha : 4096 ∣ a) (hb : 4096 ∣ b) (hne : (b, j) ≠ (a, i)) :
    entry (setEntry ram a i e) b j = entry ram b j := by
  obtain ⟨m, rfl⟩ := ha
  obtain ⟨n, rfl⟩ := hb
  rw [entry, entry, setEntry, readLE_writeLE_disjoint]
  refine span_disjoint ?_
  by_cases hmn : m = n
  · subst hmn
    have hij : j.val ≠ i.val := fun h => hne (by rw [Fin.ext h])
    omega
  · omega

end

end VirtualMemory

end LimineOS
