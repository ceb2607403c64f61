import LimineOS.Lib.Traced
import Mathlib.Data.List.Basic
import Mathlib.Data.Nat.Bitwise
import Mathlib.Logic.Function.Basic

/-!
# Disk reads

The ports answer as they like. The capacity comes from the words of the
IDENTIFY block, and the range of a request is checked against it before any
port is touched.
-/

namespace LimineOS

open Traced

namespace PATA

/-- `store` is a word that goes to the buffer, behind those stored before. -/
inductive PortEvent
  | outb (port : BitVec 16) (value : BitVec 8)
  | inb (port : BitVec 16)
  | inw (port : BitVec 16)
  | store (word : BitVec 16)
  deriving DecidableEq

structure Ports where
  inb : BitVec 16 → List PortEvent → BitVec 8
  inw : BitVec 16 → List PortEvent → BitVec 16

def outb (port : BitVec 16) (value : BitVec 8) : Traced PortEvent Unit := perform (.outb port value)

def inb (ports : Ports) (port : BitVec 16) : Traced PortEvent (BitVec 8) :=
  ask (.inb port) (ports.inb port)

def inw (ports : Ports) (port : BitVec 16) : Traced PortEvent (BitVec 16) :=
  ask (.inw port) (ports.inw port)

def ATA_TIMEOUT : Nat := 30000000

def ATA_DATA : BitVec 16 := 0
def ATA_NSECTOR : BitVec 16 := 2
def ATA_SECTOR : BitVec 16 := 3
def ATA_LCYL : BitVec 16 := 4
def ATA_HCYL : BitVec 16 := 5
def ATA_DRIVE_HEAD : BitVec 16 := 6
def ATA_COMMAND : BitVec 16 := 7
def ATA_STATUS : BitVec 16 := 7
def ATA_STATUS_ERR : BitVec 8 := 0x01
def ATA_STATUS_DRQ : BitVec 8 := 0x08
def ATA_STATUS_BUSY : BitVec 8 := 0x80
def ATA_DEV_CTL : BitVec 16 := 0x206
def ATA_CTL_SRST : BitVec 8 := 0x04

structure IDEDevice where
  base : BitVec 16
  position : BitVec 8
  present : Bool := false
  atapi : Bool := false
  cylinders : BitVec 32 := 0
  heads : BitVec 32 := 0
  sectors : BitVec 32 := 0
  capacity : BitVec 32 := 0

/-- `controllers[0].devices[0]`, as the constructor leaves it. -/
def primaryMaster : IDEDevice := { base := 0x1F0, position := 0 }

/-- For a timeout above 0. -/
def WaitForDevice (ports : Ports) (device : IDEDevice) (mask value : BitVec 8) :
    Nat → Traced PortEvent Bool
  | 0 => pure false
  | timeout + 1 => do
    let status ← inb ports (device.base + ATA_STATUS)
    if status &&& mask = value then pure true else WaitForDevice ports device mask value timeout

def ResetController (ports : Ports) (device : IDEDevice) : Traced PortEvent Unit := do
  outb (device.base + ATA_DEV_CTL) ATA_CTL_SRST
  if ← WaitForDevice ports device ATA_STATUS_BUSY ATA_STATUS_BUSY 1 then
    outb (device.base + ATA_DEV_CTL) 0
    let _ ← WaitForDevice ports device ATA_STATUS_BUSY 0 ATA_TIMEOUT

def SelectDevice (ports : Ports) (device : IDEDevice) : Traced PortEvent Bool := do
  let status ← inb ports (device.base + ATA_STATUS)
  if status &&& (ATA_STATUS_BUSY ||| ATA_STATUS_DRQ) ≠ 0 then pure false
  else
    outb (device.base + ATA_DRIVE_HEAD) (0xa0 ||| device.position <<< 4)
    let status ← inb ports (device.base + ATA_STATUS)
    pure (status &&& (ATA_STATUS_BUSY ||| ATA_STATUS_DRQ) = 0)

def readInfo (ports : Ports) (device : IDEDevice) :
    Nat → Nat → (Nat → BitVec 16) → Traced PortEvent (Nat → BitVec 16)
  | 0, _, info => pure info
  | left + 1, i, info => do
    let word ← inw ports (device.base + ATA_DATA)
    readInfo ports device left (i + 1) (Function.update info i word)

/-- What `IdentifyAtaDevice` takes from the IDENTIFY block. -/
def IDEDevice.setGeometry (device : IDEDevice) (info : Nat → BitVec 16) : IDEDevice :=
  let cylinders := (info 1).setWidth 32
  let heads := (info 3).setWidth 32
  let sectors := (info 6).setWidth 32
  { device with
    cylinders, heads, sectors
    capacity := if info 49 >>> 9 &&& 1 ≠ 0 then (info 60).setWidth 32 else heads * sectors * cylinders }

def detect (ports : Ports) (device : IDEDevice) : Traced PortEvent IDEDevice := do
  let nsector ← inb ports (device.base + ATA_NSECTOR)
  if nsector = 0x01 then
    let sector ← inb ports (device.base + ATA_SECTOR)
    if sector = 0x01 then
      let cl ← inb ports (device.base + ATA_LCYL)
      let ch ← inb ports (device.base + ATA_HCYL)
      let status ← inb ports (device.base + ATA_STATUS)
      if cl = 0x14 ∧ ch = 0xeb then pure { device with atapi := true, present := true }
      else if cl = 0 ∧ ch = 0 ∧ status ≠ 0 then pure { device with present := true }
      else pure device
    else pure device
  else pure device

def identify (ports : Ports) (device : IDEDevice) : Traced PortEvent IDEDevice := do
  outb (device.base + ATA_COMMAND) (if device.atapi then 0xA1 else 0xEC)
  if ← WaitForDevice ports device (ATA_STATUS_BUSY ||| ATA_STATUS_DRQ ||| ATA_STATUS_ERR)
    ATA_STATUS_DRQ ATA_TIMEOUT then
    let info ← readInfo ports device 256 0 fun _ => 0
    pure (device.setGeometry info)
  else pure { device with present := false }

/-- The messages are left out. -/
def IdentifyAtaDevice (ports : Ports) (device : IDEDevice) : Traced PortEvent IDEDevice := do
  let device := { device with present := false }
  outb (device.base + ATA_NSECTOR) 0xab
  let nsector ← inb ports (device.base + ATA_NSECTOR)
  if nsector ≠ 0xab then pure device
  else
    ResetController ports device
    if ← SelectDevice ports device then
      let device ← detect ports device
      if device.present then identify ports device else pure device
    else pure device

def transfer (ports : Ports) (device : IDEDevice) : Nat → Traced PortEvent Unit
  | 0 => pure ()
  | i + 1 => do
    let word ← inw ports (device.base + ATA_DATA)
    perform (.store word)
    transfer ports device i

def readSelected (ports : Ports) (device : IDEDevice) (block : BitVec 64) (nblocks : BitVec 32) :
    Traced PortEvent (BitVec 32) := do
  let sc := block.setWidth 8
  let cl := (block >>> 8).setWidth 8
  let ch := (block >>> 16).setWidth 8
  let hd := (block >>> 24).setWidth 8 &&& 0xf
  outb (device.base + ATA_NSECTOR) (nblocks.setWidth 8)
  outb (device.base + ATA_SECTOR) sc
  outb (device.base + ATA_LCYL) cl
  outb (device.base + ATA_HCYL) ch
  outb (device.base + ATA_DRIVE_HEAD) (0x40 ||| device.position <<< 4 ||| hd)
  outb (device.base + ATA_COMMAND) 0x20
  if ← WaitForDevice ports device ATA_STATUS_BUSY 0 ATA_TIMEOUT then
    let status ← inb ports (device.base + ATA_STATUS)
    if status &&& ATA_STATUS_ERR ≠ 0 then pure 0
    else
      transfer ports device (nblocks.toNat * 256)
      pure nblocks
  else pure 0

def clamp (nblocks : BitVec 32) : BitVec 32 := if 256 ≤ nblocks then 256 else nblocks

def Read (ports : Ports) (device : IDEDevice) (block : BitVec 64) (nblocks : BitVec 32) :
    Traced PortEvent (BitVec 32) :=
  if nblocks = 0 then pure 0
  else
    let nblocks := clamp nblocks
    if device.capacity.setWidth 64 < block + nblocks.setWidth 64 then pure 0
    else do
      if ← SelectDevice ports device then readSelected ports device block nblocks else pure 0

-- ---------------------------------------------------------------------------
-- What a read should do
-- ---------------------------------------------------------------------------

def sectorCount (info : Nat → BitVec 16) : Nat := (info 60).toNat + 2 ^ 16 * (info 61).toNat

def LbaCapable (info : Nat → BitVec 16) : Prop := info 49 >>> 9 &&& 1 ≠ 0

def count (nblocks : BitVec 32) : Nat := min nblocks.toNat 256

def readCommand : PortEvent := .outb (0x1F0 + ATA_COMMAND) 0x20

def register (reg : BitVec 16) (events : List PortEvent) : Option (BitVec 8) :=
  events.foldl (fun value e => match e with
    | .outb port v => if port = 0x1F0 + reg then some v else value
    | _ => value) none

def requested (events : List PortEvent) : Option (Nat × Nat) := do
  let nsector ← register ATA_NSECTOR events
  let sc ← register ATA_SECTOR events
  let cl ← register ATA_LCYL events
  let ch ← register ATA_HCYL events
  let hd ← register ATA_DRIVE_HEAD events
  if hd &&& 0x40 = 0 then none
  else some (sc.toNat + 2 ^ 8 * cl.toNat + 2 ^ 16 * ch.toNat + 2 ^ 24 * (hd &&& 0xf).toNat,
    if nsector = 0 then 256 else nsector.toNat)

def PortEvent.isStore : PortEvent → Bool
  | .store _ => true
  | _ => false

def bytesStored (events : List PortEvent) : Nat := 2 * events.countP PortEvent.isStore

/-- A request within the drive is not turned down before a port is touched. -/
structure ReadsRight (info : Nat → BitVec 16) (block : BitVec 64) (nblocks : BitVec 32)
    (run : BitVec 32 × List PortEvent) : Prop where
  issued : ∀ before after, run.2 = before ++ readCommand :: after →
    block.toNat + count nblocks ≤ sectorCount info ∧
    requested before = some (block.toNat, count nblocks)
  transferred : run.1 ≠ 0 → bytesStored run.2 = 512 * run.1.toNat
  accepted : nblocks ≠ 0 → block.toNat + count nblocks ≤ sectorCount info → run.2 ≠ []

def RightFor (info : Nat → BitVec 16) (block : BitVec 64) (nblocks : BitVec 32) : Prop :=
  ∀ ports, ReadsRight info block nblocks
    (fromStart (Read ports (primaryMaster.setGeometry info) block nblocks))

section
variable {ports : Ports} {device : IDEDevice} {mask value : BitVec 8} {timeout n : Nat}
  {info : Nat → BitVec 16}
  {block : BitVec 64} {nblocks : BitVec 32} {events es : List PortEvent}

-- ---------------------------------------------------------------------------
-- The events
-- ---------------------------------------------------------------------------

structure Plain (n : Nat) (es : List PortEvent) : Prop where
  quiet : readCommand ∉ es
  stores : es.countP PortEvent.isStore = n

theorem Plain.nil : Plain 0 [] := ⟨List.not_mem_nil, rfl⟩

theorem Plain.append {k : Nat} (h : Plain n es) (h' : Plain k events) :
    Plain (n + k) (es ++ events) := by
  refine ⟨fun hmem => (List.mem_append.mp hmem).elim h.quiet h'.quiet, ?_⟩
  rw [List.countP_append, h.stores, h'.stores]

theorem Plain.inb (port : BitVec 16) : Plain 0 [.inb port] := ⟨by simp [readCommand], rfl⟩

theorem Plain.inw (port : BitVec 16) : Plain 0 [.inw port] := ⟨by simp [readCommand], rfl⟩

theorem Plain.store (word : BitVec 16) : Plain 1 [.store word] := ⟨by simp [readCommand], rfl⟩

theorem Plain.outb {port : BitVec 16} (hport : port ≠ 0x1F0 + ATA_COMMAND) :
    Plain 0 [.outb port value] := by
  refine ⟨fun hmem => hport ?_, rfl⟩
  rw [List.mem_singleton, readCommand, PortEvent.outb.injEq] at hmem
  exact hmem.1.symm

theorem waitForDevice_emits :
    Emits (fun es _ => Plain 0 es) (WaitForDevice ports device mask value timeout) := by
  induction timeout with
  | zero => exact emits_pure .nil
  | succ timeout ih =>
    refine (emits_ask (P := fun es _ => Plain 0 es) fun _ => .inb _).bind fun es status hes => ?_
    split_ifs
    · exact emits_pure (hes.append .nil)
    · exact ih.mono fun new _ hnew => hes.append hnew

theorem transfer_emits : Emits (fun es _ => Plain n es) (transfer ports device n) := by
  induction n with
  | zero => exact emits_pure .nil
  | succ n ih =>
    refine (emits_ask (P := fun es _ => Plain 0 es) fun _ => .inw _).bind fun es word hes => ?_
    refine (emits_perform (P := fun es _ => Plain 1 es) (.store word)).bind fun es' _ hes' => ?_
    refine ih.mono fun new _ hnew => ?_
    rw [← List.append_assoc, Nat.add_comm, ← Nat.zero_add 1]
    exact (hes.append hes').append hnew

theorem selectDevice_emits (hbase : device.base = 0x1F0) :
    Emits (fun es _ => es ≠ [] ∧ Plain 0 es) (SelectDevice ports device) := by
  refine (emits_ask (P := fun es _ => es ≠ [] ∧ Plain 0 es) fun _ => ⟨by simp, .inb _⟩).bind
    fun es status hes => ?_
  split_ifs
  · refine emits_pure ⟨by simpa using hes.1, hes.2.append .nil⟩
  · have hport : device.base + ATA_DRIVE_HEAD ≠ 0x1F0 + ATA_COMMAND := by
      rw [hbase]
      decide
    refine (emits_perform (P := fun es _ => Plain 0 es) (.outb hport)).bind fun es' _ hes' => ?_
    refine (emits_ask (P := fun es _ => Plain 0 es) fun _ => .inb _).bind fun es'' status' hes'' => ?_
    refine emits_pure ⟨by simp [hes.1], hes.2.append (hes'.append (hes''.append .nil))⟩

def idle : Ports := ⟨fun _ _ => 0, fun _ _ => 0⟩

theorem selectDevice_idle : Emits (fun _ selected => selected = true) (SelectDevice idle device) := by
  refine (emits_ask (P := fun _ status => status = 0) fun _ => rfl).bind ?_
  rintro es _ rfl
  rw [if_neg (by decide)]
  refine (emits_perform (P := fun _ _ => True) trivial).bind fun es' _ _ => ?_
  refine (emits_ask (P := fun _ status => status = 0) fun _ => rfl).bind ?_
  rintro es'' _ rfl
  exact emits_pure (by decide)

def addressBytes (device : IDEDevice) (block : BitVec 64) (nblocks : BitVec 32) : List PortEvent :=
  [.outb (device.base + ATA_NSECTOR) (nblocks.setWidth 8),
    .outb (device.base + ATA_SECTOR) (block.setWidth 8),
    .outb (device.base + ATA_LCYL) ((block >>> 8).setWidth 8),
    .outb (device.base + ATA_HCYL) ((block >>> 16).setWidth 8),
    .outb (device.base + ATA_DRIVE_HEAD)
      (0x40 ||| device.position <<< 4 ||| ((block >>> 24).setWidth 8 &&& 0xf))]

theorem plain_addressBytes (block : BitVec 64) (nblocks : BitVec 32) (hbase : device.base = 0x1F0) :
    Plain 0 (addressBytes device block nblocks) := by
  rw [addressBytes, hbase]
  refine Plain.append (n := 0) (.outb (by decide))
    (Plain.append (n := 0) (.outb (by decide)) (Plain.append (n := 0)
    (.outb (by decide)) (Plain.append (n := 0) (.outb (by decide)) (.outb (by decide)))))

theorem readSelected_emits (hbase : device.base = 0x1F0) :
    Emits (fun es result => ∃ after, es = addressBytes device block nblocks ++ readCommand :: after ∧
      (result = 0 ∧ Plain 0 after ∨ result = nblocks ∧ Plain (nblocks.toNat * 256) after))
        (readSelected ports device block nblocks) := by
  have hcommand : device.base + ATA_COMMAND = 0x1F0 + ATA_COMMAND := by rw [hbase]
  refine (emits_perform (P := fun es _ => es = _) rfl).bind ?_
  rintro _ _ rfl
  refine (emits_perform (P := fun es _ => es = _) rfl).bind ?_
  rintro _ _ rfl
  refine (emits_perform (P := fun es _ => es = _) rfl).bind ?_
  rintro _ _ rfl
  refine (emits_perform (P := fun es _ => es = _) rfl).bind ?_
  rintro _ _ rfl
  refine (emits_perform (P := fun es _ => es = _) rfl).bind ?_
  rintro _ _ rfl
  refine (emits_perform (P := fun es _ => es = [readCommand]) (by rw [readCommand, hcommand])).bind ?_
  rintro _ _ rfl
  refine waitForDevice_emits.bind fun es ready hes => ?_
  cases ready with
  | false => exact emits_pure ⟨es ++ [], rfl, .inl ⟨rfl, hes.append .nil⟩⟩
  | true =>
    refine (emits_ask (P := fun es _ => Plain 0 es) fun _ => .inb _).bind fun es' status hes' => ?_
    split_ifs
    · exact emits_pure ⟨es ++ (es' ++ []), rfl, .inl ⟨rfl, hes.append (hes'.append .nil)⟩⟩
    · refine transfer_emits.bind fun es'' _ hes'' => ?_
      refine emits_pure ⟨es ++ (es' ++ (es'' ++ [])), rfl, .inr ⟨rfl, ?_⟩⟩
      rw [List.append_nil, ← List.append_assoc, ← Nat.zero_add (_ * 256)]
      exact (hes.append hes').append hes''

-- ---------------------------------------------------------------------------
-- The registers
-- ---------------------------------------------------------------------------

theorem head_lba (x : BitVec 8) :
    ((0x40 : BitVec 8) ||| (0 : BitVec 8) <<< 4 ||| (x &&& 0xf)) &&& 0x40 ≠ 0 := by
  decide +revert

theorem head_address (x : BitVec 8) :
    ((0x40 : BitVec 8) ||| (0 : BitVec 8) <<< 4 ||| (x &&& 0xf)) &&& 0xf = x &&& 0xf := by
  decide +revert

theorem requested_addressBytes (hbase : device.base = 0x1F0) (hposition : device.position = 0)
    (hblock : block.toNat < 2 ^ 28)
    (hpos : 0 < nblocks.toNat) (hle : nblocks.toNat ≤ 256) :
    requested (es ++ addressBytes device block nblocks) = some (block.toNat, nblocks.toNat) := by
  have hcount : (if nblocks.setWidth 8 = 0 then 256 else (nblocks.setWidth 8).toNat) =
      nblocks.toNat := by
    have hzero : nblocks.setWidth 8 = 0 ↔ nblocks.toNat % 256 = 0 := by
      rw [← BitVec.toNat_inj, BitVec.toNat_setWidth]
      rfl
    simp only [hzero, BitVec.toNat_setWidth]
    split_ifs <;> omega
  have hlow : (((block >>> 24).setWidth 8 : BitVec 8) &&& 0xf).toNat = block.toNat / 2 ^ 24 := by
    rw [BitVec.toNat_and, BitVec.toNat_setWidth, BitVec.toNat_ushiftRight, Nat.shiftRight_eq_div_pow]
    show (block.toNat / 2 ^ 24 % 2 ^ 8) &&& (2 ^ 4 - 1) = _
    rw [Nat.and_two_pow_sub_one_eq_mod]
    omega
  have hregisters : requested (es ++ addressBytes device block nblocks) =
      if ((0x40 : BitVec 8) ||| device.position <<< 4 ||| ((block >>> 24).setWidth 8 &&& 0xf)) &&&
        0x40 = 0 then none
      else some ((block.setWidth 8).toNat + 2 ^ 8 * ((block >>> 8).setWidth 8).toNat + 2 ^ 16 *
        ((block >>> 16).setWidth 8).toNat +
        2 ^ 24 *
          (((0x40 : BitVec 8) ||| device.position <<< 4 ||| ((block >>> 24).setWidth 8 &&& 0xf)) &&&
            0xf).toNat,
        if nblocks.setWidth 8 = 0 then 256 else (nblocks.setWidth 8).toNat) := by
    rw [addressBytes, hbase]
    simp only [requested, register, List.foldl_append]
    rfl
  rw [hregisters, hposition, if_neg (head_lba _), head_address, hcount, hlow]
  simp only [BitVec.toNat_setWidth, BitVec.toNat_ushiftRight, Nat.shiftRight_eq_div_pow,
    Option.some.injEq, Prod.mk.injEq, and_true]
  omega

-- ---------------------------------------------------------------------------
-- The check
-- ---------------------------------------------------------------------------

theorem clamp_toNat : (clamp nblocks).toNat = count nblocks := by
  rw [clamp, count]
  split_ifs with h
  · rw [BitVec.le_def] at h
    exact (Nat.min_eq_right h).symm
  · rw [BitVec.le_def] at h
    exact (Nat.min_eq_left (Nat.le_of_not_le h)).symm

theorem count_pos (hnonzero : nblocks ≠ 0) : 0 < count nblocks := by
  have hne : nblocks.toNat ≠ 0 := fun h => hnonzero (BitVec.eq_of_toNat_eq h)
  rw [count]
  omega

theorem capacity_eq (hlba : LbaCapable info) :
    (primaryMaster.setGeometry info).capacity = (info 60).setWidth 32 := if_pos hlba

/-- `Read` returns before it touches a port. -/
def Refused (info : Nat → BitVec 16) (block : BitVec 64) (nblocks : BitVec 32) : Prop :=
  (primaryMaster.setGeometry info).capacity.setWidth 64 < block + (clamp nblocks).setWidth 64

theorem refused_iff (hlba : LbaCapable info) :
    Refused info block nblocks ↔ (info 60).toNat < (block.toNat + count nblocks) % 2 ^ 64 := by
  rw [Refused, capacity_eq hlba, BitVec.lt_def, BitVec.toNat_add,
    BitVec.toNat_setWidth_of_le (by decide), BitVec.toNat_setWidth_of_le (by decide),
    BitVec.toNat_setWidth_of_le (by decide), clamp_toNat]

theorem read_refused (hrefused : nblocks = 0 ∨ Refused info block nblocks) :
    fromStart (Read ports (primaryMaster.setGeometry info) block nblocks) = (0, []) := by
  have hread : Read ports (primaryMaster.setGeometry info) block nblocks = pure 0 := by
    by_cases hnonzero : nblocks = 0
    · exact if_pos hnonzero
    · exact (if_neg hnonzero).trans (if_pos (hrefused.resolve_left hnonzero))
  rw [hread]
  rfl

theorem read_eq (hnonzero : nblocks ≠ 0) (haccepted : ¬Refused info block nblocks) :
    Read ports (primaryMaster.setGeometry info) block nblocks = (do
      if ← SelectDevice ports (primaryMaster.setGeometry info) then
        readSelected ports (primaryMaster.setGeometry info) block (clamp nblocks)
      else pure 0) :=
  (if_neg hnonzero).trans (if_neg haccepted)

theorem read_emits (ports : Ports) (hnonzero : nblocks ≠ 0)
    (haccepted : ¬Refused info block nblocks) (hblock : block.toNat < 2 ^ 28) :
    Emits (fun es result => es ≠ [] ∧
      (∀ before after, es = before ++ readCommand :: after →
        requested before = some (block.toNat, count nblocks)) ∧
      (result ≠ 0 → bytesStored es = 512 * result.toNat)) (Read ports
        (primaryMaster.setGeometry info) block nblocks) := by
  rw [read_eq hnonzero haccepted]
  refine (selectDevice_emits rfl).bind fun es selected hes => ?_
  cases selected with
  | false =>
    refine emits_pure ⟨by simpa using hes.1, fun before after heq => ?_, fun h => absurd rfl h⟩
    rw [List.append_nil] at heq
    exact absurd (heq ▸ List.mem_append_right _ (List.mem_cons_self ..)) hes.2.quiet
  | true =>
    refine (readSelected_emits rfl).mono ?_
    rintro _ result ⟨after, rfl, hresult⟩
    rw [← List.append_assoc]
    have hplain : Plain 0 (es ++ addressBytes (primaryMaster.setGeometry info) block (clamp nblocks)) :=
      hes.2.append (plain_addressBytes _ _ rfl)
    refine ⟨by simp, fun before after' heq => ?_, fun hne => ?_⟩
    · have hafter : readCommand ∉ after := by
        rcases hresult with ⟨-, h⟩ | ⟨-, h⟩ <;> exact h.quiet
      obtain ⟨rfl, -, -⟩ := (List.append_cons_inj_of_notMem hplain.quiet hafter).mp heq
      have hpos : 0 < count nblocks := count_pos hnonzero
      have hle : count nblocks ≤ 256 := Nat.min_le_right _ _
      rw [← clamp_toNat] at hpos hle ⊢
      exact requested_addressBytes rfl rfl hblock hpos hle
    · obtain ⟨hzero, -⟩ | ⟨rfl, hafter⟩ := hresult
      · exact absurd hzero hne
      · rw [bytesStored, List.countP_append, hplain.stores,
          List.countP_cons_of_neg (by simp [readCommand, PortEvent.isStore]), hafter.stores]
        omega

theorem read_idle (hnonzero : nblocks ≠ 0) (haccepted : ¬Refused info block nblocks) :
    Emits (fun es _ => readCommand ∈ es)
      (Read idle (primaryMaster.setGeometry info) block nblocks) := by
  rw [read_eq hnonzero haccepted]
  refine selectDevice_idle.bind ?_
  rintro es _ rfl
  refine (readSelected_emits rfl).mono ?_
  rintro _ result ⟨after, rfl, -⟩
  simp

theorem rightFor_iff (hlba : LbaCapable info) (hsize : sectorCount info ≤ 2 ^ 28) :
    RightFor info block nblocks ↔ nblocks = 0 ∨
      ¬(2 ^ 64 ≤ block.toNat + count nblocks ∧ block.toNat + count nblocks ≤ 2 ^ 64 + (info 60).toNat) ∧
        ¬((info 60).toNat < block.toNat + count nblocks ∧
          block.toNat + count nblocks ≤ sectorCount info) := by
  have hblock := block.isLt
  have hcount : count nblocks ≤ 256 := Nat.min_le_right _ _
  have hword : (info 60).toNat ≤ sectorCount info := Nat.le_add_right _ _
  have hrefused : Refused info block nblocks ↔
      (info 60).toNat < (block.toNat + count nblocks) % 2 ^ 64 := refused_iff hlba
  constructor
  · intro hright
    refine or_iff_not_imp_left.mpr fun hnonzero => ⟨?_, ?_⟩
    · rintro ⟨hwrapped, hlow⟩
      have hissued := (read_idle hnonzero (hrefused.not.mpr (by omega))).fromStart
      obtain ⟨before, after, heq⟩ := List.append_of_mem hissued
      have hinside := ((hright idle).issued before after heq).1
      omega
    · rintro ⟨hlow, hinside⟩
      have hempty := (hright idle).accepted hnonzero hinside
      rw [read_refused (.inr (hrefused.mpr (by omega)))] at hempty
      exact hempty rfl
  · intro hcondition ports
    by_cases hnone : nblocks = 0 ∨ Refused info block nblocks
    · rw [read_refused hnone]
      refine ⟨fun before after heq => ?_, fun hne => absurd rfl hne, fun hnonzero hinside => ?_⟩
      · exact absurd heq.symm (List.append_ne_nil_of_right_ne_nil _ (List.cons_ne_nil _ _))
      · have hover := hrefused.mp (hnone.resolve_left hnonzero)
        have hbounds := hcondition.resolve_left hnonzero
        omega
    · rw [not_or, hrefused] at hnone
      have hbounds := hcondition.resolve_left hnone.1
      have hpos := count_pos hnone.1
      have hinside : block.toNat + count nblocks ≤ sectorCount info := by omega
      obtain ⟨hsome, hissued, htransferred⟩ :=
        (read_emits ports hnone.1 (hrefused.not.mpr hnone.2) (by omega)).fromStart
      exact ⟨fun before after heq => ⟨hinside, hissued before after heq⟩, htransferred,
        fun _ _ => hsome⟩

def smallDisk (i : Nat) : BitVec 16 := if i = 49 then 0x200 else if i = 60 then 1000 else 0

theorem rightFor_smallDisk : RightFor smallDisk 992 8 :=
  (rightFor_iff (by unfold LbaCapable; decide) (by decide)).mpr (by decide)

def largeDisk (i : Nat) : BitVec 16 := if i = 49 then 0x200 else if i = 61 then 1 else 0

theorem largeDisk_refused : LbaCapable largeDisk ∧ sectorCount largeDisk = 65536 ∧
      ¬RightFor largeDisk 0 1 := by
  refine ⟨by unfold LbaCapable; decide, by decide, fun hright => ?_⟩
  have hempty := (hright idle).accepted (by decide) (by decide)
  rw [read_refused (.inr (by unfold Refused; decide))] at hempty
  exact hempty rfl

-- ---------------------------------------------------------------------------
-- `IdentifyAtaDevice`
-- ---------------------------------------------------------------------------

theorem outb_any (port : BitVec 16) (value : BitVec 8) :
    Emits (fun _ _ => True) (outb port value) := emits_perform trivial

theorem inb_any (port : BitVec 16) : Emits (fun _ _ => True) (inb ports port) :=
  emits_ask fun _ => trivial

theorem inw_any (port : BitVec 16) : Emits (fun _ _ => True) (inw ports port) :=
  emits_ask fun _ => trivial

theorem waitForDevice_any : Emits (fun _ _ => True) (WaitForDevice ports device mask value timeout) :=
  waitForDevice_emits.mono fun _ _ _ => trivial

theorem resetController_any : Emits (fun _ _ => True) (ResetController ports device) := by
  refine (outb_any _ _).bind fun _ _ _ => waitForDevice_any.bind fun _ reset _ => ?_
  cases reset with
  | false => exact emits_pure trivial
  | true =>
    exact (outb_any _ _).bind fun _ _ _ => waitForDevice_any.bind fun _ _ _ => emits_pure trivial

theorem selectDevice_any : Emits (fun _ _ => True) (SelectDevice ports device) := by
  refine (inb_any _).bind fun _ status _ => ?_
  split_ifs
  · exact emits_pure trivial
  · exact (outb_any _ _).bind fun _ _ _ => (inb_any _).bind fun _ _ _ => emits_pure trivial

theorem readInfo_any (left i : Nat) (info : Nat → BitVec 16) :
    Emits (fun _ _ => True) (readInfo ports device left i info) := by
  induction left generalizing i info with
  | zero => exact emits_pure trivial
  | succ left ih => exact (inw_any _).bind fun _ word _ => ih (i + 1) (Function.update info i word)

theorem detect_emits :
    Emits (fun _ d => ∃ present atapi, d = { device with present, atapi }) (detect ports device) := by
  refine (inb_any _).bind fun _ nsector _ => ?_
  split_ifs
  · refine (inb_any _).bind fun _ sector _ => ?_
    split_ifs
    · refine (inb_any _).bind fun _ cl _ => (inb_any _).bind fun _ ch _ =>
        (inb_any _).bind fun _ status _ => ?_
      split_ifs
      · exact emits_pure ⟨_, _, rfl⟩
      · exact emits_pure ⟨_, _, rfl⟩
      · exact emits_pure ⟨_, _, rfl⟩
    · exact emits_pure ⟨_, _, rfl⟩
  · exact emits_pure ⟨_, _, rfl⟩

theorem identify_emits :
    Emits (fun _ d => d.present = true → ∃ info, d = device.setGeometry info)
      (identify ports device) := by
  refine (outb_any _ _).bind fun _ _ _ => waitForDevice_any.bind fun _ ready _ => ?_
  cases ready with
  | false => exact emits_pure fun h => Bool.noConfusion h
  | true => exact (readInfo_any 256 0 _).bind fun _ info _ => emits_pure fun _ => ⟨info, rfl⟩

theorem identifyAtaDevice_emits :
    Emits (fun _ d => d.present = true →
      ∃ atapi info, d = IDEDevice.setGeometry { device with present := true, atapi } info)
      (IdentifyAtaDevice ports device) := by
  refine (outb_any _ _).bind fun _ _ _ => (inb_any _).bind fun _ nsector _ => ?_
  split_ifs
  · exact emits_pure fun h => Bool.noConfusion h
  · refine resetController_any.bind fun _ _ _ => selectDevice_any.bind fun _ selected _ => ?_
    cases selected with
    | false => exact emits_pure fun h => Bool.noConfusion h
    | true =>
      refine detect_emits.bind ?_
      rintro _ _ ⟨present, atapi, rfl⟩
      cases present with
      | false => exact emits_pure fun h => Bool.noConfusion h
      | true =>
        refine identify_emits.mono fun _ d hd hpresent => ?_
        obtain ⟨info, rfl⟩ := hd hpresent
        exact ⟨atapi, info, rfl⟩

end

end PATA

end LimineOS
