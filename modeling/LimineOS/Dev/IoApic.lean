import LimineOS.Cpu.Idt
import LimineOS.Dev.Madt

/-!
# Redirecting interrupts

`IOAPIC::Initialize` programs one redirection entry for each override of the
MADT. The vector it puts into an entry is the override's ISA interrupt number,
so the entries are free of the CPU's exceptions only where those numbers are
(`initializeEntries_vectored_iff`).
-/

namespace LimineOS

open Logged

/-- The device: an index register, of which the low eight bits count, and the
registers behind its window. -/
structure IOAPIC where
  index : BitVec 32 := 0
  regs : BitVec 8 → BitVec 32

namespace IOAPIC

def readReg (d : IOAPIC) (index : BitVec 32) : BitVec 32 × IOAPIC :=
  (d.regs (index.setWidth 8), { d with index })

def writeReg (d : IOAPIC) (index data : BitVec 32) : IOAPIC :=
  { index, regs := Function.update d.regs (index.setWidth 8) data }

def lowIndex (gsi : BitVec 32) : BitVec 32 := 0x10 + gsi * 2

/-- The low half of an entry: unmasked, active high, with fixed delivery and the
vector `irq`. -/
def redirectLow (low : BitVec 32) (irq : BitVec 8) : BitVec 32 :=
  let low := low &&& ~~~(1#32 <<< 16)
  let low := low &&& ~~~(1#32 <<< 11)
  let low := low &&& ~~~0x700
  let low := low &&& ~~~0xFF
  low ||| irq.setWidth 32

def redirectGSI (d : IOAPIC) (gsi : BitVec 32) (irq : BitVec 8) : IOAPIC :=
  let lowIndex := lowIndex gsi
  let highIndex := lowIndex + 1
  let (high, d) := d.readReg highIndex
  let high := high &&& ~~~0xFF000000
  let (id, d) := d.readReg 0
  let high := high ||| id <<< 24
  let d := d.writeReg highIndex high
  let (low, d) := d.readReg lowIndex
  d.writeReg lowIndex (redirectLow low irq)

def initializeEntries (d : IOAPIC) (s : Apic) : IOAPIC :=
  (List.range s.numGSIs).foldl (fun d i => d.redirectGSI (s.gsis i).gsiSource (s.gsis i).irqSource) d

-- ---------------------------------------------------------------------------
-- Redirection entries
-- ---------------------------------------------------------------------------

def entry (g : GSIRedirect) : BitVec 8 := (lowIndex g.gsiSource).setWidth 8

/-- The registers before 0x10 are no redirection entries. -/
def IsEntry (g : GSIRedirect) : Prop := 0x10 ≤ entry g

instance : DecidablePred IsEntry := fun g => inferInstanceAs (Decidable (0x10 ≤ entry g))

def vector (d : IOAPIC) (g : GSIRedirect) : BitVec 8 := (d.regs (entry g)).setWidth 8

def Masked (d : IOAPIC) (g : GSIRedirect) : Prop := (d.regs (entry g)).getLsbD 16

/-- No entry that has been programmed and unmasked carries the vector of an
exception, and different interrupts have different vectors. -/
structure Vectored (d : IOAPIC) (gs : List GSIRedirect) : Prop where
  device : ∀ g ∈ gs, IsEntry g → ¬d.Masked g → 32 ≤ (d.vector g).toNat ∧ ¬IDT.Fatal (d.vector g)
  distinct : ∀ g ∈ gs,
    ∀ g' ∈ gs, IsEntry g → IsEntry g' → g.irqSource ≠ g'.irqSource → d.vector g ≠ d.vector g'

section
variable {d : IOAPIC} {g g' : GSIRedirect} {gs : List GSIRedirect} {gsi : BitVec 32} {irq : BitVec 8}

theorem entry_toNat : (entry g).toNat = (16 + g.gsiSource.toNat * 2) % 256 := by
  rw [entry, lowIndex, BitVec.toNat_setWidth, BitVec.toNat_add, BitVec.toNat_mul]
  show (16 + g.gsiSource.toNat * 2 % 2 ^ 32) % 2 ^ 32 % 2 ^ 8 = _
  omega

theorem redirectLow_vector (low : BitVec 32) : (redirectLow low irq).setWidth 8 = irq := by
  refine BitVec.eq_of_getLsbD_eq fun i hi => ?_
  simp [redirectLow, hi]

theorem redirectLow_unmasked (low : BitVec 32) : (redirectLow low irq).getLsbD 16 = false := by
  simp [redirectLow]

theorem redirectGSI_self : (d.redirectGSI g.gsiSource irq).vector g = irq ∧
      ¬(d.redirectGSI g.gsiSource irq).Masked g := by
  obtain ⟨low, hlow⟩ : ∃ low, (d.redirectGSI g.gsiSource irq).regs (entry g) = redirectLow low irq :=
    ⟨_, Function.update_self ..⟩
  rw [vector, Masked, hlow, redirectLow_vector, redirectLow_unmasked]
  exact ⟨rfl, Bool.false_ne_true⟩

theorem redirectGSI_of_ne (d : IOAPIC) (irq : BitVec 8) (h : entry g' ≠ entry g) :
    (d.redirectGSI g.gsiSource irq).regs (entry g') = d.regs (entry g') := by
  have hhigh : entry g' ≠ (lowIndex g.gsiSource + 1).setWidth 8 := by
    intro heq
    have hnat := congrArg BitVec.toNat heq
    rw [entry_toNat, lowIndex, BitVec.toNat_setWidth, BitVec.toNat_add, BitVec.toNat_add,
      BitVec.toNat_mul] at hnat
    change _ = ((16 + g.gsiSource.toNat * 2 % 2 ^ 32) % 2 ^ 32 + 1) % 2 ^ 32 % 2 ^ 8 at hnat
    omega
  have hupdate : (d.redirectGSI g.gsiSource irq).regs (entry g') =
      Function.update d.regs ((lowIndex g.gsiSource + 1).setWidth 8) _ (entry g') :=
        Function.update_of_ne h ..
  rw [hupdate, Function.update_of_ne hhigh]

theorem initializeEntries_eq (d : IOAPIC) (s : Apic) :
    d.initializeEntries s = s.redirects.foldl (fun d g => d.redirectGSI g.gsiSource g.irqSource) d := by
  rw [initializeEntries, Apic.redirects, List.foldl_map]

theorem vector_of_foldl (hg : ∃ g' ∈ gs, entry g' = entry g) :
    ¬(gs.foldl (fun d g => d.redirectGSI g.gsiSource g.irqSource) d).Masked g ∧
      ∃ g' ∈ gs, entry g' = entry g ∧
        (gs.foldl (fun d g => d.redirectGSI g.gsiSource g.irqSource) d).vector g = g'.irqSource := by
  induction gs using List.reverseRecOn with
  | nil => simp at hg
  | append_singleton gs last ih =>
    rw [List.foldl_append, List.foldl_cons, List.foldl_nil]
    by_cases hlast : entry last = entry g
    · obtain ⟨hvector, hunmasked⟩ :=
        redirectGSI_self (d := gs.foldl (fun d g => d.redirectGSI g.gsiSource g.irqSource) d)
          (g := last)
      rw [vector, hlast] at hvector
      rw [Masked, hlast] at hunmasked
      exact ⟨hunmasked, last, by simp, hlast, hvector⟩
    · obtain ⟨g', hg', hentry⟩ := hg
      have hold : g' ∈ gs := by
        rcases List.mem_append.mp hg' with hold | hnew
        · exact hold
        · exact absurd (List.mem_singleton.mp hnew ▸ hentry) hlast
      obtain ⟨hunmasked, g'', hg'', hentry'', hvector⟩ := ih ⟨g', hold, hentry⟩
      have hkeep := redirectGSI_of_ne
        (gs.foldl (fun d g => d.redirectGSI g.gsiSource g.irqSource) d) last.irqSource
        (Ne.symm hlast)
      refine ⟨?_, g'', List.mem_append_left _ hg'', hentry'', ?_⟩
      · rwa [Masked, hkeep]
      · rwa [vector, hkeep]

theorem vectored_iff : (gs.foldl (fun d g => d.redirectGSI g.gsiSource g.irqSource) d).Vectored gs ↔
    (∀ g ∈ gs, IsEntry g → 32 ≤ g.irqSource.toNat) ∧
      ∀ g ∈ gs, ∀ g' ∈ gs, IsEntry g → entry g = entry g' → g.irqSource = g'.irqSource := by
  constructor
  · rintro ⟨hdevice, hdistinct⟩
    have hsame : ∀ g ∈ gs, ∀ g' ∈ gs, IsEntry g → entry g = entry g' → g.irqSource = g'.irqSource := by
      intro g hg g' hg' hisEntry hentry
      by_contra hne
      refine hdistinct g hg g' hg' hisEntry (by rwa [IsEntry, ← hentry]) hne ?_
      rw [vector, vector, hentry]
    refine ⟨fun g hg hisEntry => ?_, hsame⟩
    obtain ⟨hunmasked, g', hg', hentry, hvector⟩ := vector_of_foldl (d := d) ⟨g, hg, rfl⟩
    have hdev := (hdevice g hg hisEntry hunmasked).1
    rwa [hvector, ← hsame g hg g' hg' hisEntry hentry.symm] at hdev
  · rintro ⟨hdevice, hsame⟩
    have hvector : ∀ g ∈ gs, IsEntry g →
        (gs.foldl (fun d g => d.redirectGSI g.gsiSource g.irqSource) d).vector g = g.irqSource := by
      intro g hg hisEntry
      obtain ⟨-, g', hg', hentry, hvector⟩ := vector_of_foldl (d := d) ⟨g, hg, rfl⟩
      rw [hvector, hsame g hg g' hg' hisEntry hentry.symm]
    refine ⟨fun g hg hisEntry _ => ?_, fun g hg g' hg' hisEntry hisEntry' hne => ?_⟩
    · have hdev := hdevice g hg hisEntry
      rw [hvector g hg hisEntry, IDT.fatal_iff]
      exact ⟨hdev, Nat.not_lt.mpr hdev⟩
    · rwa [hvector g hg hisEntry, hvector g' hg' hisEntry']

/-- The vectors are right exactly where the interrupt numbers of the MADT's
overrides are themselves vectors of devices, one for each entry. -/
theorem initializeEntries_vectored_iff {ram : ByteMemory.Mem} {fuel rsdt addr : Nat} {s : Apic}
    (hfound : (ACPI.findTable ram rsdt ACPI.apic).val = some addr)
    (hparse : Apic.parseAPIC fuel ram rsdt {} = some s)
    (hgs : Apic.Overrides (Apic.table ram addr) 0x2C gs) :
    (d.initializeEntries s).Vectored gs ↔
      (∀ g ∈ gs, IsEntry g → 32 ≤ g.irqSource.toNat) ∧
        ∀ g ∈ gs, ∀ g' ∈ gs, IsEntry g → entry g = entry g' → g.irqSource = g'.irqSource := by
  rw [Apic.parseAPIC, hfound] at hparse
  obtain ⟨gs', hgs', hred⟩ := Apic.parseRecords_overrides hparse
  have hall : s.redirects = gs := hred.trans (hgs'.unique hgs)
  rw [initializeEntries_eq, hall, vectored_iff]

end

open Apic ByteMemory in
theorem parses_oneOverride :
    ∃ s, parseAPIC 3 (bytesMem oneImage) 0 {} = some s ∧ s.redirects = [⟨0, 2⟩] := by
  let s₀ : Apic := { lapicAddr := BitVec.ofNat 32 (readLE (table (bytesMem oneImage) 40) 0x24 4) }
  have hred := (foldl_keep oneOverride s₀).1
  refine ⟨oneOverride.foldl (fun s r => s.keep r.redirect) s₀, ?_, hred.trans (by decide)⟩
  rw [parseAPIC, findTable_oneOverride]
  exact parseRecords_tiles isMadt_oneOverride.len isMadt_oneOverride.records (by decide)

theorem initializeEntries_vectored_iff_oneOverride :
    ∃ s, Apic.parseAPIC 3 (ByteMemory.bytesMem Apic.oneImage) 0 {} = some s ∧
      ∀ d : IOAPIC, ¬(d.initializeEntries s).Vectored [⟨0, 2⟩] := by
  obtain ⟨s, hs, -⟩ := parses_oneOverride
  refine ⟨s, hs, fun d hvectored => ?_⟩
  have hcond :=
    (initializeEntries_vectored_iff Apic.findTable_oneOverride hs
      Apic.isMadt_oneOverride.overrides).mp hvectored
  exact absurd (hcond.1 ⟨0, 2⟩ (by decide) (by decide)) (by decide)

/-- The entry of line 2 gets vector 0, the divide error. -/
theorem oneOverride_not_vectored :
    ∃ s, Apic.parseAPIC 3 (ByteMemory.bytesMem Apic.oneImage) 0 {} = some s ∧
      ∀ d : IOAPIC, ¬(d.initializeEntries s).Vectored s.redirects := by
  obtain ⟨s, hs, hred⟩ := parses_oneOverride
  refine ⟨s, hs, fun d hvectored => ?_⟩
  rw [initializeEntries_eq, hred] at hvectored
  exact absurd ((vectored_iff.mp hvectored).1 ⟨0, 2⟩ (by decide) (by decide)) (by decide)

end IOAPIC

end LimineOS
