import LimineOS.Lib.Masks
import Mathlib.Logic.Function.Basic

/-!
# PCI base address registers

`PciGetBar` reads a register, writes ones to see which bits it keeps, and puts
the old value back. The type bits of a memory register come before the one
that tells I/O from memory.
-/

namespace LimineOS

open BitMask

/-- A configuration register, with the bits that it keeps of what is written. -/
structure PciRegister where
  value : BitVec 32
  writable : BitVec 32

def PciRegister.write (r : PciRegister) (data : BitVec 32) : PciRegister :=
  { r with value := r.value &&& ~~~r.writable ||| data &&& r.writable }

structure Pci where
  address : BitVec 32
  registers : BitVec 32 → PciRegister

def outd (port : BitVec 16) (data : BitVec 32) : StateM Pci Unit := modify fun s =>
  if port = 0xCF8 then { s with address := data }
  else if port = 0xCFC then
    { s with registers := Function.update s.registers s.address ((s.registers s.address).write data) }
  else s

def ind (port : BitVec 16) : StateM Pci (BitVec 32) := do
  let s ← get
  pure (if port = 0xCFC then (s.registers s.address).value else if port = 0xCF8 then s.address
    else 0xffffffff)

def configAddress (bus device func : BitVec 32) (offs : BitVec 8) : BitVec 32 :=
  0x80000000 ||| bus <<< 16 ||| device <<< 11 ||| func <<< 8 ||| offs.setWidth 32

def ReadPciRegister32 (bus device func : BitVec 32) (offs : BitVec 8) : StateM Pci (BitVec 32) := do
  outd 0xCF8 (configAddress bus device func offs)
  ind 0xCFC

def WritePciRegister32 (bus device func : BitVec 32) (offs : BitVec 8) (data : BitVec 32) :
    StateM Pci Unit := do
  outd 0xCF8 (configAddress bus device func offs)
  outd 0xCFC data

def barOffset (index : BitVec 32) : BitVec 32 := (0x10 + index.signExtend 64 * 4).setWidth 32

def barAddress (bus dev func index : BitVec 32) : BitVec 32 :=
  configAddress bus dev func ((barOffset index).setWidth 8)

def PciReadBar (bus device func index : BitVec 32) : StateM Pci (BitVec 32 × BitVec 32) := do
  let reg := (barOffset index).setWidth 8
  let address ← ReadPciRegister32 bus device func reg
  WritePciRegister32 bus device func reg 0xffffffff
  let mask ← ReadPciRegister32 bus device func reg
  WritePciRegister32 bus device func reg address
  pure (address, mask)

structure PciBar where
  base : BitVec 64
  size : BitVec 64
  is_io : Bool
  deriving DecidableEq

def PciGetBar (bus dev func index : BitVec 32) : StateM Pci PciBar := do
  let (addressLow, maskLow) ← PciReadBar bus dev func index
  if addressLow &&& 0x04 ≠ 0 then
    let (addressHigh, maskHigh) ← PciReadBar bus dev func (index + 1)
    pure {
      base := addressHigh.setWidth 64 <<< 32 ||| (addressLow &&& ~~~0xf).setWidth 64
      size := ~~~(maskHigh.setWidth 64 <<< 32 ||| (maskLow &&& ~~~0xf).setWidth 64) + 1
      is_io := false }
  else if addressLow &&& 1 ≠ 0 then
    pure {
      base := ((addressLow &&& ~~~3).setWidth 16).setWidth 64
      size := ((~~~(maskLow &&& ~~~0x3) + 1).setWidth 16).setWidth 64
      is_io := true }
  else
    pure {
      base := (addressLow &&& ~~~0xf).setWidth 64
      size := (~~~(maskLow &&& ~~~0xf) + 1).setWidth 64
      is_io := false }

-- ---------------------------------------------------------------------------
-- What the registers mean
-- ---------------------------------------------------------------------------

inductive BarKind
  | io
  | memory32
  | memory64
  deriving DecidableEq

namespace BarKind

def minOrder : BarKind → Nat
  | .io => 2
  | .memory32 | .memory64 => 4

def maxOrder : BarKind → Nat
  | .io => 16
  | .memory32 => 31
  | .memory64 => 63

def baseBits : BarKind → Nat
  | .io | .memory32 => 32
  | .memory64 => 64

def flags : BarKind → Bool → BitVec 64
  | .io, _ => 1
  | .memory32, prefetchable => if prefetchable then 8 else 0
  | .memory64, prefetchable => if prefetchable then 12 else 4

end BarKind

structure Bar where
  kind : BarKind
  base : BitVec 64
  order : Nat
  prefetchable : Bool
  min_le : kind.minOrder ≤ order
  le_max : order ≤ kind.maxOrder
  base_lt : base.toNat < 2 ^ kind.baseBits
  aligned : base.toNat % 2 ^ order = 0

namespace Bar

def flags (bar : Bar) : BitVec 64 := bar.kind.flags bar.prefetchable

def low (bar : Bar) : PciRegister :=
  ⟨(bar.base ||| bar.flags).setWidth 32, (above 64 bar.order).setWidth 32⟩

def high (bar : Bar) : PciRegister :=
  ⟨(bar.base >>> 32).setWidth 32, (above 64 bar.order >>> 32).setWidth 32⟩

def At (bar : Bar) (s : Pci) (bus dev func index : BitVec 32) : Prop :=
  s.registers (barAddress bus dev func index) = bar.low ∧
    (bar.kind = .memory64 → s.registers (barAddress bus dev func (index + 1)) = bar.high)

def Decoded (bar : Bar) (s : Pci) (bus dev func index : BitVec 32) : Prop :=
  ((PciGetBar bus dev func index).run s).1 =
    ⟨bar.base, BitVec.ofNat 64 (2 ^ bar.order), bar.kind = .io⟩ ∧
    ((PciGetBar bus dev func index).run s).2.registers = s.registers

end Bar

section
variable {s : Pci} {r : PciRegister} {bus dev func index : BitVec 32} {bar : Bar} {data : BitVec 32}

theorem PciRegister.write_value : (r.write data).write r.value = r := by
  obtain ⟨value, writable⟩ := r
  simp only [write, PciRegister.mk.injEq, and_true]
  refine BitVec.eq_of_getLsbD_eq fun i hi => ?_
  simp only [BitVec.getLsbD_or, BitVec.getLsbD_and, BitVec.getLsbD_not, hi, decide_true, Bool.true_and]
  cases writable.getLsbD i <;> simp

theorem PciReadBar_run :
    (PciReadBar bus dev func index).run s =
      (((s.registers (barAddress bus dev func index)).value,
        ((s.registers (barAddress bus dev func index)).write 0xffffffff).value),
        { s with address := barAddress bus dev func index }) := by
  let k := barAddress bus dev func index
  let probed := Function.update s.registers k ((s.registers k).write 0xffffffff)
  have hprobed : probed k = (s.registers k).write 0xffffffff := Function.update_self ..
  have hrestored : Function.update probed k ((probed k).write (s.registers k).value) = s.registers := by
    rw [hprobed, PciRegister.write_value, Function.update_idem, Function.update_eq_self]
  calc (PciReadBar bus dev func index).run s
    _ = (((s.registers k).value, (probed k).value),
      ⟨k, Function.update probed k ((probed k).write (s.registers k).value)⟩) := rfl
    _ = _ := by rw [hrestored, hprobed]

theorem PciGetBar_run {low high : PciRegister}
    (hlow : s.registers (barAddress bus dev func index) = low)
    (hhigh : s.registers (barAddress bus dev func (index + 1)) = high) :
    (PciGetBar bus dev func index).run s =
      if low.value &&& 0x04 ≠ 0 then
        (⟨high.value.setWidth 64 <<< 32 ||| (low.value &&& ~~~0xf).setWidth 64,
          ~~~((high.write 0xffffffff).value.setWidth 64 <<< 32 |||
            ((low.write 0xffffffff).value &&& ~~~0xf).setWidth 64) + 1, false⟩,
          { s with address := barAddress bus dev func (index + 1) })
      else if low.value &&& 1 ≠ 0 then
        (⟨((low.value &&& ~~~3).setWidth 16).setWidth 64,
          ((~~~((low.write 0xffffffff).value &&& ~~~0x3) + 1).setWidth 16).setWidth 64, true⟩,
          { s with address := barAddress bus dev func index })
      else
        (⟨(low.value &&& ~~~0xf).setWidth 64,
          (~~~((low.write 0xffffffff).value &&& ~~~0xf) + 1).setWidth 64, false⟩,
            { s with address := barAddress bus dev func index }) := by
  rw [PciGetBar, StateT.run_bind, PciReadBar_run, hlow]
  show StateT.run (m := Id) (ite _ _ _) _ = _
  split_ifs
  · show StateT.run (m := Id) (_ >>= _) _ = _
    rw [StateT.run_bind, PciReadBar_run]
    show ((_, _) : PciBar × Pci) = _
    rw [hhigh]
  · rfl
  · rfl

theorem PciGetBar_registers : ((PciGetBar bus dev func index).run s).2.registers = s.registers := by
  rw [PciGetBar_run rfl rfl]
  split_ifs <;> rfl

theorem BarKind.flags_lt (kind : BarKind) (prefetchable : Bool) :
    (kind.flags prefetchable).toNat < 2 ^ kind.minOrder := by
  cases kind <;> cases prefetchable <;> decide

theorem BarKind.minOrder_le (kind : BarKind) : kind.minOrder ≤ 4 := by
  cases kind <;> decide

namespace Bar

theorem low_value : bar.low.value = bar.base.setWidth 32 ||| bar.flags.setWidth 32 :=
  (BitVec.setWidth_or : (bar.base ||| bar.flags).setWidth 32 = _)

theorem low_writable : bar.low.writable = above 32 bar.order :=
  (setWidth_above (by decide) : (above 64 bar.order).setWidth 32 = _)

theorem flags32_lt : (bar.flags.setWidth 32).toNat < 2 ^ bar.kind.minOrder :=
  (Nat.mod_le _ _).trans_lt (bar.kind.flags_lt bar.prefetchable)

theorem base32_mod {n : Nat} (hn : n ≤ bar.order) : (bar.base.setWidth 32).toNat % 2 ^ n = 0 := by
  have hdvd : 2 ^ n ∣ bar.base.toNat :=
    (Nat.pow_dvd_pow 2 hn).trans (Nat.dvd_of_mod_eq_zero bar.aligned)
  rw [BitVec.toNat_setWidth]
  rcases Nat.le_total n 32 with h32 | h32
  · rw [Nat.mod_mod_of_dvd _ (Nat.pow_dvd_pow 2 h32)]
    exact Nat.mod_eq_zero_of_dvd hdvd
  · rw [Nat.mod_eq_zero_of_dvd ((Nat.pow_dvd_pow 2 h32).trans hdvd), Nat.zero_mod]

theorem masked_base {n : Nat} (hn : bar.kind.minOrder = n) :
    bar.low.value &&& above 32 n = bar.base.setWidth 32 := by
  subst hn
  rw [low_value]
  exact or_and_above (base32_mod bar.min_le) flags32_lt

theorem probed_low :
    (bar.low.write 0xffffffff).value = above 32 bar.order ||| bar.flags.setWidth 32 := by
  have hkept : bar.low.value &&& ~~~above 32 bar.order = bar.flags.setWidth 32 := by
    rw [low_value]
    exact or_and_not_above (base32_mod (Nat.le_refl _))
      (flags32_lt.trans_le (Nat.pow_le_pow_right (by decide) bar.min_le))
  rw [PciRegister.write, low_writable, hkept, BitVec.or_comm,
    show (0xffffffff : BitVec 32) = BitVec.allOnes 32 from rfl, BitVec.allOnes_and]

theorem masked_size {n : Nat} (hn : bar.kind.minOrder = n) :
    (bar.low.write 0xffffffff).value &&& above 32 n = above 32 bar.order := by
  subst hn
  rw [probed_low]
  exact or_and_above (above_mod bar.min_le (bar.kind.minOrder_le.trans (by decide))) flags32_lt

theorem probed_high : (bar.high.write 0xffffffff).value = (above 64 bar.order >>> 32).setWidth 32 := by
  have hkept : bar.high.value &&& ~~~bar.high.writable = 0#32 := by
    refine BitVec.eq_of_getLsbD_eq fun i hi => ?_
    show ((bar.base >>> 32).setWidth 32 &&& ~~~(above 64 bar.order >>> 32).setWidth 32).getLsbD i = _
    rw [BitVec.getLsbD_and, BitVec.getLsbD_not, BitVec.getLsbD_setWidth, BitVec.getLsbD_setWidth,
      BitVec.getLsbD_ushiftRight, BitVec.getLsbD_ushiftRight, getLsbD_above (by omega),
      decide_eq_true hi, Bool.true_and, Bool.true_and, Bool.true_and]
    rcases Nat.lt_or_ge (32 + i) bar.order with hlt | hge
    · rw [getLsbD_of_aligned bar.aligned hlt, Bool.false_and, BitVec.getLsbD_zero]
    · rw [decide_eq_true hge, Bool.not_true, Bool.and_false, BitVec.getLsbD_zero]
  rw [PciRegister.write, hkept, BitVec.zero_or,
    show (0xffffffff : BitVec 32) = BitVec.allOnes 32 from rfl, BitVec.allOnes_and]
  rfl

-- ---------------------------------------------------------------------------
-- The three encodings
-- ---------------------------------------------------------------------------

theorem bit_iff {i : Nat} (hi : i < 32) : bar.low.value &&& BitVec.twoPow 32 i ≠ 0 ↔
    bar.base.getLsbD i = true ∨ bar.flags.getLsbD i = true := by
  rw [and_pow_ne_zero_iff hi, low_value, BitVec.getLsbD_or, BitVec.getLsbD_setWidth,
    BitVec.getLsbD_setWidth, decide_eq_true hi, Bool.true_and, Bool.true_and, Bool.or_eq_true]

theorem base_bit {i : Nat} (hi : i < bar.order) : bar.base.getLsbD i = false :=
  getLsbD_of_aligned bar.aligned hi

theorem decoded_memory64 (h : bar.At s bus dev func index) (hkind : bar.kind = .memory64) :
    bar.Decoded s bus dev func index := by
  have hbit : bar.low.value &&& 0x04 ≠ 0 := (bit_iff (by decide : 2 < 32)).mpr (.inr (by
    rw [flags, hkind]
    cases bar.prefetchable <;> rfl))
  have hbase : bar.low.value &&& ~~~0xf = bar.base.setWidth 32 :=
    masked_base (n := 4) (by rw [hkind]; rfl)
  have hsize : (bar.low.write 0xffffffff).value &&& ~~~0xf = (above 64 bar.order).setWidth 32 :=
    (masked_size (n := 4) (by rw [hkind]; rfl)).trans (setWidth_above (by decide)).symm
  refine ⟨?_, PciGetBar_registers⟩
  rw [PciGetBar_run h.1 (h.2 hkind), if_pos hbit, hbase, hsize, probed_high, halves_or,
    not_above_add_one, hkind]
  show PciBar.mk (((bar.base >>> 32).setWidth 32).setWidth 64 <<< 32 ||| _) _ _ = _
  rw [halves_or]
  rfl

theorem decoded_memory32 (h : bar.At s bus dev func index) (hkind : bar.kind = .memory32) :
    bar.Decoded s bus dev func index := by
  have hmin : bar.kind.minOrder = 4 := by rw [hkind]; rfl
  have horder : 4 ≤ bar.order := hmin ▸ bar.min_le
  have hmax : bar.order ≤ 31 := by
    have := bar.le_max
    rwa [hkind] at this
  have hbase_lt : bar.base.toNat < 2 ^ 32 := by
    have := bar.base_lt
    rwa [hkind] at this
  have hno64 : ¬bar.low.value &&& 0x04 ≠ 0 := by
    refine (bit_iff (by decide : 2 < 32)).not.mpr ?_
    rw [base_bit (by omega), flags, hkind]
    cases bar.prefetchable <;> decide
  have hnoIo : ¬bar.low.value &&& 1 ≠ 0 := by
    refine (bit_iff (by decide : 0 < 32)).not.mpr ?_
    rw [base_bit (by omega), flags, hkind]
    cases bar.prefetchable <;> decide
  have hbase : bar.low.value &&& ~~~0xf = bar.base.setWidth 32 := masked_base hmin
  have hsize : (bar.low.write 0xffffffff).value &&& ~~~0xf = above 32 bar.order := masked_size hmin
  have hwide : (bar.base.setWidth 32).setWidth 64 = bar.base := by
    rw [← BitVec.toNat_inj, BitVec.toNat_setWidth, BitVec.toNat_setWidth]
    omega
  have hpow : 2 ^ bar.order < 2 ^ 32 := Nat.pow_lt_pow_right (by decide) (by omega)
  have hwideSize : (BitVec.ofNat 32 (2 ^ bar.order)).setWidth 64 = BitVec.ofNat 64 (2 ^ bar.order) := by
    rw [← BitVec.toNat_inj, BitVec.toNat_setWidth, BitVec.toNat_ofNat, BitVec.toNat_ofNat]
    generalize 2 ^ bar.order = size at hpow ⊢
    omega
  refine ⟨?_, PciGetBar_registers⟩
  rw [PciGetBar_run h.1 rfl, if_neg hno64, if_neg hnoIo, hbase, hsize, not_above_add_one, hwide,
    hwideSize, hkind]
  rfl

theorem decoded_io_iff (h : bar.At s bus dev func index) (hkind : bar.kind = .io) :
    bar.Decoded s bus dev func index ↔ bar.base.getLsbD 2 = false ∧ bar.base.toNat < 2 ^ 16 ∧
      bar.order < 16 := by
  have hmin : bar.kind.minOrder = 2 := by rw [hkind]; rfl
  have horder : 2 ≤ bar.order := hmin ▸ bar.min_le
  have hmax : bar.order ≤ 16 := by
    have := bar.le_max
    rwa [hkind] at this
  have hbase_lt : bar.base.toNat < 2 ^ 32 := by
    have := bar.base_lt
    rwa [hkind] at this
  have hbit : bar.low.value &&& 0x04 ≠ 0 ↔ bar.base.getLsbD 2 = true := by
    refine (bit_iff (by decide : 2 < 32)).trans ?_
    rw [flags, hkind]
    exact or_iff_left (by cases bar.prefetchable <;> decide)
  have hio : bar.low.value &&& 1 ≠ 0 := by
    refine (bit_iff (by decide : 0 < 32)).mpr (.inr ?_)
    rw [flags, hkind]
    cases bar.prefetchable <;> rfl
  have hbase : bar.low.value &&& ~~~3 = bar.base.setWidth 32 := masked_base hmin
  have hsize : (bar.low.write 0xffffffff).value &&& ~~~0x3 = above 32 bar.order := masked_size hmin
  have hnarrow : ((bar.base.setWidth 32).setWidth 16).setWidth 64 = bar.base ↔
      bar.base.toNat < 2 ^ 16 := by
    rw [← BitVec.toNat_inj, BitVec.toNat_setWidth, BitVec.toNat_setWidth, BitVec.toNat_setWidth]
    omega
  have hnarrowSize : ((BitVec.ofNat 32 (2 ^ bar.order)).setWidth 16).setWidth 64 =
      BitVec.ofNat 64 (2 ^ bar.order) ↔
      bar.order < 16 := by
    rw [← BitVec.toNat_inj, BitVec.toNat_setWidth, BitVec.toNat_setWidth, BitVec.toNat_ofNat,
      BitVec.toNat_ofNat, ← Nat.pow_lt_pow_iff_right (by decide : 1 < 2)]
    have hpow : 2 ^ bar.order ≤ 2 ^ 16 := Nat.pow_le_pow_right (by decide) hmax
    generalize 2 ^ bar.order = size at hpow ⊢
    omega
  rw [Decoded, PciGetBar_run h.1 rfl]
  by_cases htwo : bar.base.getLsbD 2 = true
  · rw [if_pos (hbit.mpr htwo), hkind]
    simp [htwo]
  · rw [if_neg (hbit.not.mpr htwo), if_pos hio, hbase, hsize, not_above_add_one, hkind]
    simp only [PciBar.mk.injEq, hnarrow, hnarrowSize, Bool.eq_false_of_not_eq_true htwo,
      decide_true, and_true, true_and]

theorem decoded_iff (h : bar.At s bus dev func index) :
    bar.Decoded s bus dev func index ↔
      (bar.kind = .io → bar.base.getLsbD 2 = false ∧ bar.base.toNat < 2 ^ 16 ∧ bar.order < 16) := by
  cases hkind : bar.kind with
  | io => exact (decoded_io_iff h hkind).trans ⟨fun hr _ => hr, fun hr => hr rfl⟩
  | memory32 => exact iff_of_true (decoded_memory32 h hkind) (fun hio => by cases hio)
  | memory64 => exact iff_of_true (decoded_memory64 h hkind) (fun hio => by cases hio)

def fourMegabytes : Bar := ⟨.memory64, 0xe0000000, 22, true, by decide, by decide, by decide, by decide⟩

theorem decoded_fourMegabytes :
    fourMegabytes.Decoded
      ⟨0, fun a => if a = 0x80000010 then fourMegabytes.low else fourMegabytes.high⟩ 0 0 0 0 :=
  (decoded_iff ⟨rfl, fun _ => rfl⟩).mpr (by decide)

/-- Four ports from 0x1004. Bit 2 of the register says that it is a memory register of 64 bits. -/
def fourPorts : Bar := ⟨.io, 0x1004, 2, false, by decide, by decide, by decide, by decide⟩

theorem fourPorts_not_decoded :
    fourPorts.At ⟨0, fun _ => fourPorts.low⟩ 0 0 0 0 ∧
      ¬fourPorts.Decoded ⟨0, fun _ => fourPorts.low⟩ 0 0 0 0 :=
  ⟨⟨rfl, fun hkind => absurd hkind (by decide)⟩,
    fun h => absurd (congrArg PciBar.is_io h.1) (by decide)⟩

end Bar

end

end LimineOS
