import LimineOS.Lib.FirstMatch
import LimineOS.Lib.Logged
import LimineOS.Util

/-!
# Finding an ACPI table

`FindTable` goes through the pointers behind the header of the RSDT and compares
the signature of each table with `strncmp`. It logs the pointers it inspects, by
their index. The lookup is exact where the RSDT is as long as its header and no
table is taken for the one that is wanted (`findTable_exact_iff`).
-/

namespace LimineOS

open ByteMemory FirstMatch Logged

namespace ACPI

section
variable (ram : Mem) (rsdt : Nat) (sig : CStr)

def rsdtLen : Nat := readLE ram (rsdt + 4) 4

def sdts (i : Nat) : Nat := readLE ram (u64 (rsdt + 36 + 4 * i)) 4

def signature (hdr : Nat) : CStr := fun k => ram (hdr + k)

def findTableFrom : Nat → Nat → Logged Nat (Option Nat)
  | 0, _ => pure none
  | n + 1, i => do
    let hdr ← use i (sdts ram rsdt i)
    if strncmp (signature ram hdr) sig 4 = 0 then pure (some hdr) else findTableFrom n (i + 1)

/-- The bound is `size_t`: it wraps for a length below that of the header. -/
def findTable : Logged Nat (Option Nat) :=
  findTableFrom ram rsdt sig (subU64 (rsdtLen ram rsdt) 36 / 4) 0

-- ---------------------------------------------------------------------------
-- An exact lookup
-- ---------------------------------------------------------------------------

def tables : List Nat := (List.range ((rsdtLen ram rsdt - 36) / 4)).map (sdts ram rsdt)

def HasSignature (hdr : Nat) : Prop := ∀ k < 4, signature ram hdr k = sig k

instance : DecidablePred (HasSignature ram sig) := fun hdr =>
  inferInstanceAs (Decidable (∀ k < 4, signature ram hdr k = sig k))

/-- The lookup stays inside the RSDT and returns the first table with the
signature. -/
structure Exact : Prop where
  inside : Uses (fun i => i < (rsdtLen ram rsdt - 36) / 4) (findTable ram rsdt sig)
  first : (findTable ram rsdt sig).val = (tables ram rsdt).find? fun hdr => HasSignature ram sig hdr

variable {ram rsdt sig} {n i hdr : Nat}

theorem findTableFrom_val : (findTableFrom ram rsdt sig n i).val =
    ((List.range' i n).map (sdts ram rsdt)).find? fun hdr => strncmp (signature ram hdr) sig 4 = 0 := by
  induction n generalizing i with
  | zero => rfl
  | succ n ih =>
    rw [findTableFrom, val_bind, val_use, List.range'_succ, List.map_cons, List.find?_cons]
    split_ifs with hsig
    · rw [decide_eq_true hsig]
      rfl
    · rw [decide_eq_false hsig, ih]

theorem findTableFrom_uses : Uses (fun j => j < i + n) (findTableFrom ram rsdt sig n i) := by
  induction n generalizing i with
  | zero => exact Uses.pure
  | succ n ih =>
    refine (Uses.use (by omega)).bind ?_
    rw [val_use]
    split_ifs
    · exact Uses.pure
    · exact ih.mono fun j hj => by omega

theorem HasSignature.strncmp_eq (h : HasSignature ram sig hdr) :
    strncmp (signature ram hdr) sig 4 = 0 :=
  strncmp_eq_zero_iff.mpr fun k hk _ => h k hk

theorem subU64_header (h : 36 ≤ rsdtLen ram rsdt) :
    subU64 (rsdtLen ram rsdt) 36 = rsdtLen ram rsdt - 36 := by
  have hlen := readLE_lt ram (rsdt + 4) 4
  exact subU64_of_le (Nat.lt_trans hlen (by decide)) h

theorem mem_log_findTable (h : rsdtLen ram rsdt < 36) : 0 ∈ (findTable ram rsdt sig).log := by
  obtain ⟨n, hn⟩ : ∃ n, subU64 (rsdtLen ram rsdt) 36 / 4 = n + 1 := by
    refine ⟨subU64 (rsdtLen ram rsdt) 36 / 4 - 1, ?_⟩
    unfold subU64
    omega
  rw [findTable, hn, findTableFrom, log_bind, log_use]
  exact List.mem_cons_self

/-- A table that the comparison takes for the one wanted must be it or come after
it: a NUL in its signature ends the comparison. -/
theorem findTable_exact_iff : Exact ram rsdt sig ↔
    36 ≤ rsdtLen ram rsdt ∧
      Covers (HasSignature ram sig) (fun hdr => strncmp (signature ram hdr) sig 4 = 0)
        (tables ram rsdt) := by
  have hval (h : 36 ≤ rsdtLen ram rsdt) : (findTable ram rsdt sig).val =
      (tables ram rsdt).find? fun hdr => strncmp (signature ram hdr) sig 4 = 0 := by
    rw [findTable, findTableFrom_val, subU64_header h, ← List.range_eq_range', tables]
  have hfirst := find?_eq_iff (fun hdr (h : HasSignature ram sig hdr) => h.strncmp_eq) (tables ram rsdt)
  constructor
  · rintro ⟨hinside, hsame⟩
    have hlen : 36 ≤ rsdtLen ram rsdt := by
      by_contra hlt
      have h0 := hinside 0 (mem_log_findTable (by omega))
      omega
    rw [hval hlen] at hsame
    exact ⟨hlen, hfirst.mp hsame⟩
  · rintro ⟨hlen, hcovers⟩
    refine ⟨?_, ?_⟩
    · rw [findTable, subU64_header hlen]
      exact findTableFrom_uses.mono fun i hi => by omega
    · rw [hval hlen]
      exact hfirst.mpr hcovers

end

def apic : CStr := cstr [0x41, 0x50, 0x49, 0x43]

/-- An RSDT at 4096 of 40 bytes, whose one table, at 8192, has NULs for a
signature. -/
def nulTable : Mem := fun a => if a = 4100 then 40 else if a = 4133 then 0x20 else 0

theorem not_exact : ¬Exact (fun _ => 0) 4096 apic ∧ ¬Exact nulTable 4096 apic := by
  constructor
  · intro h
    have h0 := h.inside 0 (mem_log_findTable (by decide))
    exact absurd h0 (by decide)
  · intro h
    have hfound : (findTable nulTable 4096 apic).val = some 8192 := by rfl
    have hnone : (tables nulTable 4096).find? (fun hdr => HasSignature nulTable apic hdr) =
        none := by decide
    have hsame := h.first
    rw [hfound, hnone] at hsame
    exact absurd hsame (by decide)

end ACPI

end LimineOS
