import LimineOS.Dev.Acpi
import LimineOS.Lib.Reads

/-!
# Parsing the MADT

`ParseAPIC` walks over the records of the MADT by the length that each record
says it has, and keeps the interrupt overrides. The loop logs the bytes of the
table it reads and the indices of `gsis` it stores to.
-/

namespace LimineOS

open ByteMemory Logged

structure GSIRedirect where
  irqSource : BitVec 8
  gsiSource : BitVec 32
  deriving DecidableEq, Repr

/-- The globals of `acpi.cpp`. What `gsis` holds behind its 256 entries is not
its own. -/
structure Apic where
  lapicAddr : BitVec 32 := 0
  gsis : Nat → GSIRedirect := fun _ => ⟨0, 0⟩
  numGSIs : Nat := 0

namespace Apic

inductive Access
  | read (offset : Nat)
  | store (index : Nat)
  deriving DecidableEq, Repr

def field (t : Mem) (offset n : Nat) : Logged Access Nat := (readLEL t offset n).via .read

/-- The `switch`. The fields of the first two types are read and not used. -/
def parseRecord (t : Mem) (pos : Nat) (s : Apic) : Nat → Logged Access Apic
  | 0 => do
    let _processorId ← field t (pos + 2) 1
    let _apicId ← field t (pos + 3) 1
    let _flags ← field t (pos + 4) 1
    pure s
  | 1 => do
    let _ioapicId ← field t (pos + 2) 1
    let _ioapicAddr ← field t (pos + 4) 4
    let _gsiBase ← field t (pos + 8) 4
    pure s
  | 2 => do
    let _busSource ← field t (pos + 2) 1
    let irqSource ← field t (pos + 3) 1
    let gsiSource ← field t (pos + 4) 4
    let redirect := ⟨BitVec.ofNat 8 irqSource, BitVec.ofNat 32 gsiSource⟩
    use (.store s.numGSIs)
      { s with gsis := Function.update s.gsis s.numGSIs redirect, numGSIs := s.numGSIs + 1 }
  | _ => pure s

def parseRecords (t : Mem) : Nat → Nat → Apic → Logged Access (Option Apic)
  | 0, _, _ => pure none
  | fuel + 1, pos, s => do
    let len ← field t 4 4
    if pos < len then
      let entryType ← field t pos 1
      let recordLen ← field t (pos + 1) 1
      let s ← parseRecord t pos s entryType
      parseRecords t fuel (pos + recordLen) s
    else pure (some s)

def table (ram : Mem) (addr : Nat) : Mem := fun i => ram (addr + i)

/-- `ParseAPIC` with the table that `FindTable` has found, if any. -/
def parseFound (fuel : Nat) (ram : Mem) (s : Apic) : Option Nat → Option Apic
  | none => some s
  | some addr =>
    let t := table ram addr
    (parseRecords t fuel 0x2C { s with lapicAddr := BitVec.ofNat 32 (readLE t 0x24 4) }).val

def parseAPIC (fuel : Nat) (ram : Mem) (rsdt : Nat) (s : Apic) : Option Apic :=
  parseFound fuel ram s (ACPI.findTable ram rsdt ACPI.apic).val

section
variable {t : Mem} {pos fuel offset n : Nat} {s : Apic} {P : Access → Prop} {o : Option GSIRedirect}

def len (t : Mem) : Nat := readLE t 4 4

def entryType (t : Mem) (pos : Nat) : Nat := readLE t pos 1

def recordLen (t : Mem) (pos : Nat) : Nat := readLE t (pos + 1) 1

@[simp] theorem field_val : (field t offset n).val = readLE t offset n := readLEL_val

theorem parseRecords_val : (parseRecords t (fuel + 1) pos s).val =
    if pos < len t then
      (parseRecords t fuel (pos + recordLen t pos) (parseRecord t pos s (entryType t pos)).val).val
    else some s := by
  rw [parseRecords, val_bind, field_val, ← len]
  split_ifs
  · simp only [val_bind, field_val]
    rfl
  · rfl

theorem uses_parseRecords_iff : Uses P (parseRecords t (fuel + 1) pos s) ↔
    Uses P (field t 4 4) ∧ (pos < len t → Uses P (field t pos 1) ∧ Uses P (field t (pos + 1) 1) ∧
      Uses P (parseRecord t pos s (entryType t pos)) ∧
        Uses P
          (parseRecords t fuel (pos + recordLen t pos)
            (parseRecord t pos s (entryType t pos)).val)) := by
  rw [parseRecords, uses_bind_iff, field_val, ← len]
  refine and_congr_right fun _ => ?_
  split_ifs with hpos
  · simp only [uses_bind_iff, field_val, hpos, true_imp_iff]
    rfl
  · exact iff_of_true Uses.pure fun hpos' => absurd hpos' hpos

-- ---------------------------------------------------------------------------
-- Well-formed tables
-- ---------------------------------------------------------------------------

def keep (s : Apic) : Option GSIRedirect → Apic
  | none => s
  | some g => { s with gsis := Function.update s.gsis s.numGSIs g, numGSIs := s.numGSIs + 1 }

def redirects (s : Apic) : List GSIRedirect := (List.range s.numGSIs).map s.gsis

@[simp] theorem keep_lapicAddr : (s.keep o).lapicAddr = s.lapicAddr := by cases o <;> rfl

theorem keep_redirects : (s.keep o).redirects = s.redirects ++ o.toList := by
  cases o with
  | none => simp [keep]
  | some g =>
    have hold : (List.range s.numGSIs).map (Function.update s.gsis s.numGSIs g) = s.redirects :=
      List.map_congr_left fun i hi => Function.update_of_ne (List.mem_range.mp hi).ne ..
    rw [redirects, keep, List.range_succ, List.map_append, hold]
    simp

def redirectAt (t : Mem) (pos : Nat) : Option GSIRedirect :=
  if entryType t pos = 2 then
    some ⟨BitVec.ofNat 8 (readLE t (pos + 3) 1), BitVec.ofNat 32 (readLE t (pos + 4) 4)⟩
  else none

theorem parseRecord_val : (parseRecord t pos s (entryType t pos)).val = s.keep (redirectAt t pos) := by
  rw [redirectAt]
  split_ifs with htype
  · rw [htype]
    simp only [parseRecord, val_bind, field_val, val_use]
    rfl
  · unfold parseRecord
    split
    · rfl
    · rfl
    · rename_i h2
      exact absurd h2 htype
    · rfl

/-- A record says how long it is, and an interrupt override is 10 bytes long. -/
structure Record where
  bytes : List Byte
  header : 2 ≤ bytes.length
  length : recordLen (bytesMem bytes) 0 = bytes.length
  override : entryType (bytesMem bytes) 0 = 2 → bytes.length = 10

namespace Record

variable {r : Record}

def redirect (r : Record) : Option GSIRedirect := redirectAt (bytesMem r.bytes) 0

theorem recordLen_eq (h : Holds t pos r.bytes) : recordLen t pos = r.bytes.length := by
  rw [← r.length]
  exact h.readLE_eq (k := 1) (n := 1) r.header

theorem redirectAt_eq (h : Holds t pos r.bytes) : redirectAt t pos = r.redirect := by
  have htype : entryType t pos = entryType (bytesMem r.bytes) 0 :=
    h.readLE_eq (k := 0) (n := 1) (by have := r.header; omega)
  rw [redirect, redirectAt, redirectAt, htype]
  split_ifs with h2
  · have hlen := r.override h2
    rw [h.readLE_eq (k := 3) (n := 1) (by omega), h.readLE_eq (k := 4) (n := 4) (by omega)]
  · rfl

end Record

structure IsMadt (t : Mem) (recs : List Record) : Prop where
  len : len t = 0x2C + (recs.flatMap Record.bytes).length
  records : Holds t 0x2C (recs.flatMap Record.bytes)
  few : (recs.filterMap Record.redirect).length ≤ 256

theorem parseRecords_tiles {recs : List Record}
    (hlen : len t = pos + (recs.flatMap Record.bytes).length)
    (hrecs : Holds t pos (recs.flatMap Record.bytes)) (hfuel : recs.length < fuel) :
    (parseRecords t fuel pos s).val = some (recs.foldl (fun s r => s.keep r.redirect) s) := by
  induction recs generalizing pos fuel s with
  | nil =>
    obtain ⟨fuel, rfl⟩ : ∃ k, fuel = k + 1 := ⟨fuel - 1, by omega⟩
    rw [parseRecords_val, if_neg (by rw [hlen]; simp)]
    rfl
  | cons r recs ih =>
    obtain ⟨fuel, rfl⟩ : ∃ k, fuel = k + 1 := ⟨fuel - 1, by omega⟩
    rw [List.flatMap_cons, holds_append] at hrecs
    rw [List.flatMap_cons, List.length_append] at hlen
    have hheader := r.header
    rw [parseRecords_val, if_pos (by omega), Record.recordLen_eq hrecs.1, parseRecord_val,
      Record.redirectAt_eq hrecs.1, ih (by omega) hrecs.2 (Nat.lt_of_succ_lt_succ hfuel)]
    rfl

theorem foldl_keep (recs : List Record) (s : Apic) :
    (recs.foldl (fun s r => s.keep r.redirect) s).redirects =
      s.redirects ++ recs.filterMap Record.redirect ∧
      (recs.foldl (fun s r => s.keep r.redirect) s).lapicAddr = s.lapicAddr := by
  induction recs generalizing s with
  | nil => exact ⟨(List.append_nil _).symm, rfl⟩
  | cons r recs ih =>
    obtain ⟨hred, haddr⟩ := ih (s.keep r.redirect)
    refine ⟨?_, haddr.trans keep_lapicAddr⟩
    rw [List.foldl_cons, hred, keep_redirects, List.append_assoc, List.filterMap_cons]
    cases r.redirect <;> simp

/-- Whatever the records are, the overrides are kept in the order of the table. -/
theorem parseAPIC_exact {ram : Mem} {rsdt addr : Nat} {recs : List Record}
    (hfound : (ACPI.findTable ram rsdt ACPI.apic).val = some addr)
    (hmadt : IsMadt (table ram addr) recs) :
    ∃ s, (∃ n, ∀ fuel, n ≤ fuel → parseAPIC fuel ram rsdt {} = some s) ∧
      s.lapicAddr.toNat = readLE (table ram addr) 0x24 4 ∧ s.numGSIs ≤ 256 ∧
      s.redirects = recs.filterMap Record.redirect := by
  let s₀ : Apic := { lapicAddr := BitVec.ofNat 32 (readLE (table ram addr) 0x24 4) }
  obtain ⟨hred, haddr⟩ := foldl_keep recs s₀
  have hredirects : (recs.foldl (fun s r => s.keep r.redirect) s₀).redirects =
      recs.filterMap Record.redirect := hred
  refine ⟨recs.foldl (fun s r => s.keep r.redirect) s₀, ⟨recs.length + 1, fun fuel hfuel => ?_⟩, ?_,
    ?_, hredirects⟩
  · rw [parseAPIC, hfound]
    exact parseRecords_tiles hmadt.len hmadt.records hfuel
  · have hlt := readLE_lt (table ram addr) 0x24 4
    rw [haddr, BitVec.toNat_ofNat]
    exact Nat.mod_eq_of_lt (Nat.lt_of_lt_of_eq hlt (by norm_num))
  · have hcount := congrArg List.length hredirects
    rw [redirects, List.length_map, List.length_range] at hcount
    rw [hcount]
    exact hmadt.few

inductive Overrides (t : Mem) : Nat → List GSIRedirect → Prop
  | stop {pos : Nat} : len t ≤ pos → Overrides t pos []
  | record {pos : Nat} {gs : List GSIRedirect} : pos < len t → Overrides t (pos + recordLen t pos) gs →
    Overrides t pos ((redirectAt t pos).toList ++ gs)

theorem Overrides.unique {gs gs' : List GSIRedirect} (h : Overrides t pos gs)
    (h' : Overrides t pos gs') : gs = gs' := by
  induction h generalizing gs' with
  | stop hstop =>
    cases h' with
    | stop => rfl
    | record hpos => omega
  | record hpos _ ih =>
    cases h' with
    | stop hstop => omega
    | record _ h' => rw [ih h']

theorem parseRecords_overrides {s' : Apic} (h : (parseRecords t fuel pos s).val = some s') :
    ∃ gs, Overrides t pos gs ∧ s'.redirects = s.redirects ++ gs := by
  induction fuel generalizing pos s with
  | zero => exact absurd h (by simp [parseRecords])
  | succ fuel ih =>
    rw [parseRecords_val] at h
    split_ifs at h with hpos
    · obtain ⟨gs, hgs, hred⟩ := ih h
      rw [parseRecord_val, keep_redirects, List.append_assoc] at hred
      exact ⟨_, .record hpos hgs, hred⟩
    · obtain rfl := Option.some.inj h
      exact ⟨[], .stop (by omega), (List.append_nil _).symm⟩

theorem IsMadt.overrides {recs : List Record} (h : IsMadt t recs) :
    Overrides t 0x2C (recs.filterMap Record.redirect) := by
  obtain ⟨gs, hgs, hred⟩ :=
    parseRecords_overrides (parseRecords_tiles (s := {}) h.len h.records (Nat.lt_succ_self _))
  have hkept := (foldl_keep recs {}).1.symm.trans hred
  rwa [List.append_cancel_left hkept]

end

theorem table_append (xs ys : List Byte) : table (bytesMem (xs ++ ys)) xs.length = bytesMem ys := by
  funext i
  rw [table, bytesMem, bytesMem, List.getD_eq_getElem?_getD,
    List.getElem?_append_right (Nat.le_add_right ..), Nat.add_sub_cancel_left,
    List.getD_eq_getElem?_getD]

def oneTable : List Byte := [0, 0, 0, 0, 40] ++ List.replicate 31 0 ++ [40, 0, 0, 0]

def madtHeader : List Byte :=
  [0x41, 0x50, 0x49, 0x43, 57] ++ List.replicate 31 0 ++ [0, 0, 0xe0, 0xfe, 0, 0, 0, 0]

/-- A record of an unknown type, and the override of interrupt 0 by line 2. -/
def oneOverride : List Record :=
  [⟨[9, 3, 1], by decide, by decide, by decide⟩,
    ⟨[2, 10, 0, 0, 2, 0, 0, 0, 0, 0], by decide, by decide, by decide⟩]

def oneImage : List Byte := oneTable ++ (madtHeader ++ oneOverride.flatMap Record.bytes)

theorem isMadt_oneOverride : IsMadt (table (bytesMem oneImage) 40) oneOverride := by
  rw [oneImage, show 40 = oneTable.length from rfl, table_append]
  refine ⟨by decide, ?_, by decide⟩
  exact (holds_append.mp (holds_bytesMem _)).2

theorem findTable_oneOverride : (ACPI.findTable (bytesMem oneImage) 0 ACPI.apic).val = some 40 := by
  rfl

theorem parseAPIC_exact_oneOverride :
    ∃ s, (∃ n, ∀ fuel, n ≤ fuel → parseAPIC fuel (bytesMem oneImage) 0 {} = some s) ∧
      s.lapicAddr.toNat = 0xfee00000 ∧ s.numGSIs ≤ 256 ∧ s.redirects = [⟨0, 2⟩] := by
  obtain ⟨s, hends, haddr, hfew, hred⟩ := parseAPIC_exact findTable_oneOverride isMadt_oneOverride
  refine ⟨s, hends, haddr.trans ?_, hfew, hred.trans (by decide)⟩
  rw [oneImage, show 40 = oneTable.length from rfl, table_append]
  decide

-- ---------------------------------------------------------------------------
-- Any table
-- ---------------------------------------------------------------------------

def Inside (t : Mem) : Access → Prop
  | .read offset => offset < len t
  | .store index => index < 256

structure Robust (t : Mem) (s : Apic) : Prop where
  ends : ∃ fuel, (parseRecords t fuel 0x2C s).val ≠ none
  inside : ∀ fuel, Uses (Inside t) (parseRecords t fuel 0x2C s)

def fieldsEnd : Nat → Nat
  | 0 => 5
  | 1 => 12
  | 2 => 8
  | _ => 2

def overrides (entryType : Nat) : Nat := if entryType = 2 then 1 else 0

/-- From a position on, going by the lengths that the records state meets only
records with a length whose fields are in the table, `n` of them overrides. -/
inductive Walk (t : Mem) : Nat → Nat → Prop
  | stop : len t ≤ pos → Walk t pos 0
  | record : pos + fieldsEnd (entryType t pos) ≤ len t → recordLen t pos ≠ 0 →
      Walk t (pos + recordLen t pos) n →
    Walk t pos (overrides (entryType t pos) + n)

section
variable {t : Mem} {pos fuel offset n : Nat} {s : Apic}

theorem uses_field_iff (hn : 0 < n) : Uses (Inside t) (field t offset n) ↔ offset + n ≤ len t := by
  have hall : Uses (Inside t) (field t offset n) ↔ ∀ i ∈ span offset n, i ∈ span 0 (len t) := by
    rw [field, uses_via_iff]
    refine forall_congr' fun i => ?_
    rw [mem_log_readLEL, mem_span, mem_span]
    exact imp_congr_right fun _ =>
      ⟨fun h => ⟨Nat.zero_le i, by rwa [Nat.zero_add]⟩, fun h => show i < len t by omega⟩
  rw [hall, forall_span_iff hn]
  omega

theorem uses_record_iff : Uses (Inside t) (field t pos 1) ∧ Uses (Inside t) (field t (pos + 1) 1) ∧
      Uses (Inside t) (parseRecord t pos s (entryType t pos)) ↔
    pos + fieldsEnd (entryType t pos) ≤ len t ∧ (entryType t pos = 2 → s.numGSIs < 256) := by
  generalize entryType t pos = type
  have h4 : 0 < 4 := by decide
  unfold parseRecord fieldsEnd
  split
  · simp only [uses_bind_iff, uses_field_iff Nat.one_pos, uses_pure_iff, and_true]
    exact ⟨fun h => ⟨by omega, fun h2 => absurd h2 (by decide)⟩, fun h => by omega⟩
  · simp only [uses_bind_iff, uses_field_iff Nat.one_pos, uses_field_iff h4, uses_pure_iff, and_true]
    exact ⟨fun h => ⟨by omega, fun h2 => absurd h2 (by decide)⟩, fun h => by omega⟩
  · simp only [uses_bind_iff, uses_field_iff Nat.one_pos, uses_field_iff h4, uses_use_iff, Inside,
      true_imp_iff]
    omega
  · rename_i hother
    simp only [uses_field_iff Nat.one_pos, uses_pure_iff, and_true]
    exact ⟨fun h => ⟨by omega, fun h2 => absurd h2 hother⟩, fun h => by omega⟩

theorem parseRecord_numGSIs :
    (parseRecord t pos s (entryType t pos)).val.numGSIs = s.numGSIs + overrides (entryType t pos) := by
  rw [parseRecord_val, redirectAt, overrides]
  split_ifs <;> rfl

theorem parseRecords_stuck (hpos : pos < len t) (hlen : recordLen t pos = 0) :
    (parseRecords t fuel pos s).val = none := by
  induction fuel generalizing s with
  | zero => rfl
  | succ fuel ih => rw [parseRecords_val, if_pos hpos, hlen, Nat.add_zero, ih]

theorem walk_of_robust (hends : (parseRecords t fuel pos s).val ≠ none)
    (hinside : ∀ fuel, Uses (Inside t) (parseRecords t fuel pos s)) (hs : s.numGSIs ≤ 256) :
    ∃ n, Walk t pos n ∧ s.numGSIs + n ≤ 256 := by
  induction fuel generalizing pos s with
  | zero => exact absurd rfl hends
  | succ fuel ih =>
    by_cases hpos : pos < len t
    · have hstep := fun fuel => (uses_parseRecords_iff.mp (hinside (fuel + 1))).2 hpos
      obtain ⟨htype, hlength, hrecord, -⟩ := hstep 0
      obtain ⟨hfields, hstore⟩ := uses_record_iff.mp ⟨htype, hlength, hrecord⟩
      have hne : recordLen t pos ≠ 0 := fun hzero => hends (parseRecords_stuck hpos hzero)
      have hs' : (parseRecord t pos s (entryType t pos)).val.numGSIs ≤ 256 := by
        rw [parseRecord_numGSIs, overrides]
        split_ifs with h2
        · exact hstore h2
        · exact hs
      rw [parseRecords_val, if_pos hpos] at hends
      obtain ⟨n, hwalk, hn⟩ := ih hends (fun fuel => (hstep fuel).2.2.2) hs'
      rw [parseRecord_numGSIs] at hn
      exact ⟨_, .record hfields hne hwalk, by omega⟩
    · exact ⟨0, .stop (by omega), hs⟩

theorem Walk.robust (hw : Walk t pos n) (hlen : 8 ≤ len t) (hs : s.numGSIs + n ≤ 256) :
    (∃ fuel, (parseRecords t fuel pos s).val ≠ none) ∧
      ∀ fuel, Uses (Inside t) (parseRecords t fuel pos s) := by
  have hheader : Uses (Inside t) (field t 4 4) := (uses_field_iff (by decide)).mpr hlen
  induction hw generalizing s with
  | @stop pos hstop =>
    refine ⟨⟨1, ?_⟩, fun fuel => ?_⟩
    · rw [parseRecords_val, if_neg (by omega)]
      exact Option.some_ne_none s
    · cases fuel with
      | zero => exact Uses.pure
      | succ fuel => exact uses_parseRecords_iff.mpr ⟨hheader, fun hpos => by omega⟩
  | @record pos n hfields hne hwalk ih =>
    have htwo : 2 ≤ fieldsEnd (entryType t pos) := by
      unfold fieldsEnd
      split <;> omega
    have hpos : pos < len t := by omega
    obtain ⟨⟨fuel, hfuel⟩, hinside⟩ := ih (s := (parseRecord t pos s (entryType t pos)).val) (by
      rw [parseRecord_numGSIs]
      omega)
    obtain ⟨htype, hlength, hrecord⟩ := (uses_record_iff (s := s)).mpr ⟨hfields, fun h2 => by
      rw [overrides, if_pos h2] at hs
      omega⟩
    refine ⟨⟨fuel + 1, ?_⟩, fun fuel => ?_⟩
    · rwa [parseRecords_val, if_pos hpos]
    · cases fuel with
      | zero => exact Uses.pure
      | succ fuel =>
        exact uses_parseRecords_iff.mpr ⟨hheader, fun _ => ⟨htype, hlength, hrecord, hinside fuel⟩⟩

/-- The loop trusts every length it reads. -/
theorem robust_iff (lapicAddr : BitVec 32) :
    Robust t { lapicAddr } ↔ 8 ≤ len t ∧ ∃ n ≤ 256, Walk t 0x2C n := by
  constructor
  · rintro ⟨⟨fuel, hends⟩, hinside⟩
    obtain ⟨n, hwalk, hn⟩ := walk_of_robust hends hinside (Nat.zero_le 256)
    have hheader := (uses_parseRecords_iff.mp (hinside 1)).1
    exact ⟨(uses_field_iff (by decide)).mp hheader, n, by simpa using hn, hwalk⟩
  · rintro ⟨hlen, n, hn, hwalk⟩
    obtain ⟨hends, hinside⟩ := hwalk.robust (s := { lapicAddr }) hlen (by simpa using hn)
    exact ⟨hends, hinside⟩

end

def nulRecords (n : Byte) : Mem := fun i => if i = 4 then n else 0

/-- A record of length 0, and a record that the table's end cuts off. -/
theorem not_robust : ¬Robust (nulRecords 0x2E) {} ∧ ¬Robust (nulRecords 0x2D) {} := by
  constructor
  · rintro ⟨⟨fuel, hends⟩, -⟩
    exact hends (parseRecords_stuck (by decide) (by decide))
  · rintro ⟨-, hinside⟩
    have hlength := ((uses_parseRecords_iff.mp (hinside 1)).2 (by decide)).2.1
    have hlt := (uses_field_iff (by decide)).mp hlength
    exact absurd hlt (by decide)

end Apic

end LimineOS
