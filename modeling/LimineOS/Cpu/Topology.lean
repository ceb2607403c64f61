import LimineOS.Sched.Agreement
import LimineOS.Sched.Runs
import LimineOS.Fs.Elf

/-!
# The processors at boot

`kernel_entry` reaches the records in `cpus` by four numbers: the processor ids
of the bootloader's list, its local APIC ids, the one of the processor that
boots, and the constant `curCpuCore`. `Boot` notes which indices are used and
which kernel stacks `Scheduler::Initialize` stores where.
-/

namespace LimineOS

open Transition VirtualMemory

structure SmpInfo where
  processorId : BitVec 32
  lapicId : BitVec 32
  deriving DecidableEq, Repr

structure SmpResponse where
  bspLapicId : BitVec 32
  cpus : List SmpInfo
  deriving DecidableEq, Repr

structure Boot where
  sched : Scheduler
  pmm : PhysicalMemory
  indices : List Nat := []
  kstacks : List (Nat × Nat) := []

namespace Boot

def useCpu (k : Boot) (id : Nat) : Boot := { k with indices := k.indices ++ [id] }

/-- `GDT::SetupGdt`: a stack for the task state segment, whose address goes
into the processor's record. -/
def setupGdt (k : Boot) (processorId : Nat) : Option Boot := do
  let (_, pmm) ← k.pmm.alloc (0x4000 / 4096)
  some (useCpu { k with pmm } processorId)

def setCurCPU (k : Boot) (id : Nat) : Boot :=
  useCpu { k with sched := { k.sched with curCpu := id } } id

def initializeCpu (k : Boot) (info : SmpInfo) : Option Boot := do
  let id := info.processorId.toNat
  let (sched, pmm) ← Scheduler.initializeCpu (k.sched, k.pmm) id
  let kstacks := k.kstacks ++ [(id, (sched.cpus id).kstackPhys)]
  some (useCpu { k with sched, pmm, kstacks } id)

def initializeScheduler (k : Boot) (smp : SmpResponse) : Option Boot :=
  smp.cpus.foldlM initializeCpu { k with sched := k.sched.unlock }

def addThread (new : New) (boot : BootInfo) (entry : BitVec 64) (k : Boot) : Option Boot := do
  let (t, pmm) ← new k.pmm threadSize
  let (thread, pmm) ← Thread.construct boot k.sched.getCurCPU.kstackPhys pmm entry false
  let sched ← k.sched.addEntry t entry false thread.rootTable
  some (useCpu { k with sched, pmm } sched.curCpuCore)

def intIndex (n : BitVec 32) : Nat := (n.signExtend 64).toNat

def numberCpu (k : Boot) (info : SmpInfo) : Boot :=
  let id := info.lapicId.toNat
  let cpu := { k.sched.cpus id with processorId := intIndex info.lapicId }
  useCpu { k with sched := { k.sched with cpus := Function.update k.sched.cpus id cpu } } id

/-- `kernel_entry` up to `Scheduler::Initialize`. `devices` is what the set-up
of ACPI and of the interrupt controllers does to memory. -/
def beforeThreads (boot : BootInfo) (smp : SmpResponse)
    (devices : PhysicalMemory → Option PhysicalMemory) (k : Boot) :
    Option Boot := do
  let k ← k.setupGdt 0
  let (_, pmm) ← initializeMemory boot k.pmm
  let pmm ← devices pmm
  (setCurCPU { k with pmm } smp.bspLapicId.toNat).initializeScheduler smp

/-- The rest of `kernel_entry`, from the first thread on. -/
def startThreads (new : New) (boot : BootInfo) (smp : SmpResponse) (entry : BitVec 64) (k : Boot) :
    Option Boot := do
  let k ← k.addThread new boot entry
  some (smp.cpus.foldl numberCpu k)

def kernelEntry (new : New) (boot : BootInfo) (smp : SmpResponse)
    (devices : PhysicalMemory → Option PhysicalMemory)
    (entry : BitVec 64) (k : Boot) : Option Boot := do
  let k ← k.beforeThreads boot smp devices
  k.startThreads new boot smp entry

def start (threads : ThreadPtr → Thread) (curCpu : Nat) (pmm : PhysicalMemory) : Boot :=
  { sched := { threads, curCpu }, pmm }

/-- A boot with its state between the two halves, which is the one that the
constructor of the first thread finds. -/
structure Booting (new : New) (boot : BootInfo) (smp : SmpResponse)
    (devices : PhysicalMemory → Option PhysicalMemory)
    (entry : BitVec 64) (k k₁ k₂ : Boot) : Prop where
  before : k.beforeThreads boot smp devices = some k₁
  threads : k₁.startThreads new boot smp entry = some k₂

def HasKstack (k : Boot) : Prop := (k.sched.curCpu, k.sched.getCurCPU.kstackPhys) ∈ k.kstacks

/-- The records are consistent: no index is outside the array, the first
thread finds its kernel stack, and at any time later the queue to which
`AddThread` appends is the one that `Schedule` saves to and reads from. -/
structure Consistent (k₁ k₂ : Boot) : Prop where
  inArray : ∀ id ∈ k₂.indices, id < 256
  kstack : k₁.HasKstack
  queue : ∀ es s, Run Scheduler.Step k₂.sched es s →
    s.curCpu = s.curCpuCore ∧ s.getCurCPU.processorId = s.curCpuCore ∧ s.curCpuCore < 256

structure FromZero (smp : SmpResponse) : Prop where
  bsp : smp.bspLapicId = 0
  processor : ∃ info ∈ smp.cpus, info.processorId = 0
  inArray : ∀ info ∈ smp.cpus, info.processorId.toNat < 256 ∧ info.lapicId.toNat < 256

end Boot

-- ---------------------------------------------------------------------------
-- What the scheduler leaves alone
-- ---------------------------------------------------------------------------

namespace Scheduler

structure SameCpus (s s' : Scheduler) : Prop where
  core : s'.curCpuCore = s.curCpuCore
  cpu : s'.curCpu = s.curCpu
  processorId : ∀ id, (s'.cpus id).processorId = (s.cpus id).processorId

section
variable {s s' u : Scheduler} {t : ThreadPtr} {e : Event}

theorem SameCpus.refl : SameCpus s s := ⟨rfl, rfl, fun _ => rfl⟩

theorem SameCpus.trans (h : SameCpus s s') (h' : SameCpus s' u) : SameCpus s u :=
  ⟨h'.core.trans h.core, h'.cpu.trans h.cpu, fun id => (h'.processorId id).trans (h.processorId id)⟩

theorem sameCpus_modifyThread {f : Thread → Thread} : SameCpus s (s.modifyThread t f) :=
  ⟨rfl, rfl, fun _ => rfl⟩

theorem sameCpus_modifyQueue {id : Nat} {f : TaskQueue → TaskQueue} : SameCpus s (s.modifyQueue id f) :=
  ⟨rfl, rfl, modifyQueue_processorId⟩

theorem sameCpus_unlock : SameCpus s s.unlock := ⟨rfl, rfl, fun _ => rfl⟩

theorem sameCpus_lock (h : s.lock = some s') : SameCpus s s' := by
  unfold lock at h
  split_ifs at h
  cases h
  exact ⟨rfl, rfl, fun _ => rfl⟩

theorem sameCpus_enqueue : SameCpus s (s.enqueue t) := by
  obtain ⟨threads, heq, -⟩ := enqueue_eq s t
  refine ⟨?_, ?_, enqueue_processorId s t⟩ <;> rw [heq]
  · rfl
  · rfl

theorem sameCpus_addEntry {entry : BitVec 64} {isUser : Bool} {rootTable : Nat}
    (h : s.addEntry t entry isUser rootTable = some s') : SameCpus s s' := by
  obtain ⟨s₁, hlock, rfl⟩ := Option.map_eq_some_iff.mp h
  exact (sameCpus_lock hlock).trans
    (sameCpus_modifyThread.trans (sameCpus_enqueue.trans sameCpus_unlock))

theorem sameCpus_saveContext {regs : SavedRegs} : SameCpus s (s.saveContext regs) := by
  rw [saveContext_eq]
  exact ⟨rfl, rfl, fun _ => rfl⟩

theorem sameCpus_getNextThread {fuel id : Nat} {r : Option ThreadPtr}
    (h : getNextThread fuel s id = some (r, s')) :
    SameCpus s s' := by
  induction fuel generalizing s with
  | zero => cases h
  | succ fuel ih =>
    rw [getNextThread] at h
    split_ifs at h
    · cases h
      exact .refl
    · simp only [Option.bind_eq_bind, Option.bind_eq_some_iff] at h
      obtain ⟨current, -, t, -, h⟩ := h
      split_ifs at h
      · cases h
        exact sameCpus_modifyQueue
      · exact sameCpus_modifyQueue.trans (ih h)

theorem sameCpus_schedule {fuel : Nat} {regs : SavedRegs} {r : Option ThreadPtr}
    (h : s.schedule fuel regs = some (r, s')) : SameCpus s s' := by
  simp only [schedule, Option.bind_eq_bind, Option.bind_eq_some_iff] at h
  obtain ⟨s₁, hlock, ⟨next, s₂⟩, hnext, h⟩ := h
  have hsame := (sameCpus_lock hlock).trans (sameCpus_saveContext.trans (sameCpus_getNextThread hnext))
  cases next with
  | none =>
    cases h
    exact hsame.trans sameCpus_unlock
  | some t =>
    cases h
    exact hsame.trans (sameCpus_unlock.trans ⟨rfl, rfl, fun _ => rfl⟩)

theorem Step.sameCpus (h : Step s e s') : SameCpus s s' := by
  cases e with
  | addEntry t entry isUser rootTable => exact sameCpus_addEntry h
  | addThread t entry isUser rootTable =>
    obtain rfl := h
    exact sameCpus_modifyThread.trans (sameCpus_enqueue.trans sameCpus_unlock)
  | tick regs next =>
    obtain ⟨fuel, h⟩ := h
    exact sameCpus_schedule h
  | deleteCurThread =>
    simp only [Step, deleteCurThread, Option.bind_eq_bind, Option.bind_eq_some_iff] at h
    obtain ⟨current, -, h⟩ := h
    cases h
    exact sameCpus_modifyThread

theorem run_sameCpus {es : List Event} (h : Run Step s es s') : SameCpus s s' :=
  h.invariant (I := SameCpus s) .refl fun hsame hstep => hsame.trans hstep.sameCpus

end

end Scheduler

-- ---------------------------------------------------------------------------
-- What each part of the boot does
-- ---------------------------------------------------------------------------

namespace Boot

open Scheduler

abbrev processorIds (cpus : List SmpInfo) : List Nat := cpus.map fun info => info.processorId.toNat

abbrev lapicIds (cpus : List SmpInfo) : List Nat := cpus.map fun info => info.lapicId.toNat

def Stacks (k : Boot) : Prop :=
  ∀ id ∈ k.kstacks.map Prod.fst, (id, (k.sched.cpus id).kstackPhys) ∈ k.kstacks

section
variable {new : New} {boot : BootInfo} {smp : SmpResponse}
  {devices : PhysicalMemory → Option PhysicalMemory}
  {entry : BitVec 64} {k k' k₁ k₂ : Boot} {info : SmpInfo} {cpus : List SmpInfo} {n : BitVec 32}

theorem initializeCpu_some (h : k.initializeCpu info = some k') :
    ∃ kstack pmm, k.pmm.alloc 4 = some (kstack, pmm) ∧
      k'.kstacks = k.kstacks ++ [(info.processorId.toNat, kstack)] ∧
      k'.indices = k.indices ++ [info.processorId.toNat] ∧
      (∀ id, (k'.sched.cpus id).kstackPhys = if id = info.processorId.toNat then kstack
        else (k.sched.cpus id).kstackPhys) ∧
      SameCpus k.sched k'.sched := by
  simp only [initializeCpu, Scheduler.initializeCpu, Option.bind_eq_bind, Option.bind_eq_some_iff] at h
  obtain ⟨⟨sched, pmm'⟩, ⟨⟨kstack, pmm⟩, halloc, hcpu⟩, h⟩ := h
  cases hcpu
  cases h
  refine ⟨kstack, pmm, halloc, ?_, rfl, fun id => ?_, rfl, rfl, fun id => ?_⟩
  · rw [useCpu]
    simp only [Function.update_self]
  · rw [useCpu]
    by_cases hid : id = info.processorId.toNat
    · rw [if_pos hid, hid]
      simp only [Function.update_self]
    · rw [if_neg hid]
      simp only [Function.update_of_ne hid]
  · rw [useCpu]
    by_cases hid : id = info.processorId.toNat
    · rw [hid]
      simp only [Function.update_self]
    · simp only [Function.update_of_ne hid]

theorem initializeCpus_some (h : cpus.foldlM initializeCpu k = some k') (hk : k.Stacks) :
    k'.Stacks ∧ k'.kstacks.map Prod.fst = k.kstacks.map Prod.fst ++ processorIds cpus ∧
      k'.indices = k.indices ++ processorIds cpus ∧ SameCpus k.sched k'.sched := by
  induction cpus generalizing k with
  | nil =>
    cases h
    simpa using ⟨hk, SameCpus.refl⟩
  | cons info cpus ih =>
    rw [List.foldlM_cons, Option.bind_eq_bind, Option.bind_eq_some_iff] at h
    obtain ⟨k₁, h₁, h⟩ := h
    obtain ⟨kstack, pmm, -, hkstacks, hindices, hphys, hsame⟩ := initializeCpu_some h₁
    have hk₁ : k₁.Stacks := by
      intro id hid
      rw [hphys, hkstacks]
      by_cases heq : id = info.processorId.toNat
      · rw [if_pos heq, heq]
        exact List.mem_append_right _ (List.mem_singleton_self _)
      · rw [if_neg heq]
        rw [hkstacks, List.map_append, List.mem_append, List.map_singleton, List.mem_singleton] at hid
        exact List.mem_append_left _ (hk id (hid.resolve_right heq))
    obtain ⟨hstacks, hfst, hind, hsame'⟩ := ih h hk₁
    refine ⟨hstacks, ?_, ?_, hsame.trans hsame'⟩
    · rw [hfst, hkstacks]
      simp
    · rw [hind, hindices]
      simp

theorem numberCpu_processorId (id : Nat) : ((k.numberCpu info).sched.cpus id).processorId =
    if id = info.lapicId.toNat then intIndex info.lapicId else (k.sched.cpus id).processorId := by
  show (Function.update k.sched.cpus _ _ id).processorId = _
  by_cases hid : id = info.lapicId.toNat
  · rw [if_pos hid, hid, Function.update_self]
  · rw [if_neg hid, Function.update_of_ne hid]

theorem numberCpus_eq : (cpus.foldl numberCpu k).indices = k.indices ++ lapicIds cpus ∧
    (cpus.foldl numberCpu k).sched.curCpuCore = k.sched.curCpuCore ∧
    (cpus.foldl numberCpu k).sched.curCpu = k.sched.curCpu ∧
    ∀ n : BitVec 32, ((k.sched.cpus n.toNat).processorId = intIndex n ∨
      ∃ info ∈ cpus, info.lapicId = n) →
      ((cpus.foldl numberCpu k).sched.cpus n.toNat).processorId = intIndex n := by
  induction cpus generalizing k with
  | nil => simp
  | cons info cpus ih =>
    obtain ⟨hindices, hcore, hcpu, hnumber⟩ := ih (k := k.numberCpu info)
    refine ⟨?_, hcore, hcpu, fun n h => hnumber n ?_⟩
    · rw [List.foldl_cons, hindices, numberCpu, useCpu]
      simp
    · rw [numberCpu_processorId]
      by_cases heq : n.toNat = info.lapicId.toNat
      · rw [if_pos heq, BitVec.eq_of_toNat_eq heq]
        exact .inl rfl
      · rw [if_neg heq]
        refine h.imp_right fun ⟨info', hmem, hn⟩ => ⟨info', ?_, hn⟩
        refine (List.mem_cons.mp hmem).resolve_left ?_
        rintro rfl
        exact heq (congrArg BitVec.toNat hn).symm

theorem beforeThreads_some {threads : ThreadPtr → Thread} {curCpu : Nat} {pmm : PhysicalMemory}
    (h : (start threads curCpu pmm).beforeThreads boot smp devices = some k₁) :
    k₁.Stacks ∧ k₁.kstacks.map Prod.fst = processorIds smp.cpus ∧
      k₁.indices = [0, smp.bspLapicId.toNat] ++ processorIds smp.cpus ∧
      k₁.sched.curCpuCore = 0 ∧ k₁.sched.curCpu = smp.bspLapicId.toNat := by
  simp only [beforeThreads, setupGdt, Option.bind_eq_bind, Option.bind_eq_some_iff] at h
  obtain ⟨k, ⟨⟨p, pmm₁⟩, -, hk⟩, ⟨dir, pmm₂⟩, -, pmm₃, -, h⟩ := h
  cases hk
  obtain ⟨hstacks, hfst, hindices, hsame⟩ :=
    initializeCpus_some h (by simp [Stacks, start, setCurCPU, useCpu])
  exact ⟨hstacks, hfst, hindices, hsame.core, hsame.cpu⟩

theorem hasKstack_iff {threads : ThreadPtr → Thread} {curCpu : Nat} {pmm : PhysicalMemory}
    (h : (start threads curCpu pmm).beforeThreads boot smp devices = some k₁) :
    k₁.HasKstack ↔ ∃ info ∈ smp.cpus, info.processorId = smp.bspLapicId := by
  obtain ⟨hstacks, hfst, -, -, hcpu⟩ := beforeThreads_some h
  have hiff : k₁.HasKstack ↔ smp.bspLapicId.toNat ∈ processorIds smp.cpus := by
    rw [HasKstack, hcpu, ← hfst]
    constructor
    · exact fun hmem => List.mem_map.mpr ⟨_, hmem, rfl⟩
    · intro hid
      have hmem := hstacks _ hid
      rwa [← hcpu] at hmem ⊢
  rw [hiff, List.mem_map]
  simp only [BitVec.toNat_inj]

theorem startThreads_some (h : k₁.startThreads new boot smp entry = some k₂) :
    k₂.indices = k₁.indices ++ [k₁.sched.curCpuCore] ++ lapicIds smp.cpus ∧
      k₂.sched.curCpuCore = k₁.sched.curCpuCore ∧ k₂.sched.curCpu = k₁.sched.curCpu ∧
      ∀ info ∈ smp.cpus, (k₂.sched.cpus info.lapicId.toNat).processorId = intIndex info.lapicId := by
  simp only [startThreads, addThread, Option.bind_eq_bind, Option.bind_eq_some_iff] at h
  obtain ⟨k, ⟨⟨t, pmm₁⟩, -, ⟨thread, pmm₂⟩, -, sched, hadd, hk⟩, h⟩ := h
  cases hk
  cases h
  have hsame := sameCpus_addEntry hadd
  refine ⟨?_, numberCpus_eq.2.1.trans hsame.core, numberCpus_eq.2.2.1.trans hsame.cpu,
    fun info hinfo => ?_⟩
  · rw [numberCpus_eq.1, useCpu, hsame.core]
  · exact numberCpus_eq.2.2.2 _ (.inr ⟨info, hinfo, rfl⟩)

theorem kernelEntry_some_iff :
    k.kernelEntry new boot smp devices entry = some k₂ ↔
      ∃ k₁, Booting new boot smp devices entry k k₁ k₂ := by
  rw [kernelEntry, Option.bind_eq_bind, Option.bind_eq_some_iff]
  exact exists_congr fun k₁ => ⟨fun h => ⟨h.1, h.2⟩, fun h => ⟨h.before, h.threads⟩⟩

theorem Booting.inArray_iff {threads : ThreadPtr → Thread} {curCpu : Nat} {pmm : PhysicalMemory}
    (h : Booting new boot smp devices entry (start threads curCpu pmm) k₁ k₂)
    (hbsp : ∃ info ∈ smp.cpus, info.lapicId = smp.bspLapicId) :
    (∀ id ∈ k₂.indices, id < 256) ↔
      ∀ info ∈ smp.cpus, info.processorId.toNat < 256 ∧ info.lapicId.toNat < 256 := by
  obtain ⟨-, -, hindices₁, hcore, -⟩ := beforeThreads_some h.before
  obtain ⟨hindices, -, -, -⟩ := startThreads_some h.threads
  rw [hindices, hindices₁, hcore]
  constructor
  · intro hall info hinfo
    refine ⟨hall _ ?_, hall _ ?_⟩
    · have hmem : info.processorId.toNat ∈ processorIds smp.cpus := List.mem_map_of_mem hinfo
      simp [hmem]
    · have hmem : info.lapicId.toNat ∈ lapicIds smp.cpus := List.mem_map_of_mem hinfo
      simp [hmem]
  · intro hall id hid
    obtain ⟨bsp, hmem, hlapic⟩ := hbsp
    simp only [List.mem_append, List.mem_cons, List.not_mem_nil, or_false, List.mem_map] at hid
    rcases hid with (((rfl | rfl) | ⟨info, hinfo, rfl⟩) | rfl) | ⟨info, hinfo, rfl⟩
    · decide
    · rw [← hlapic]
      exact (hall bsp hmem).2
    · exact (hall info hinfo).1
    · decide
    · exact (hall info hinfo).2

theorem Booting.queue_iff {threads : ThreadPtr → Thread} {curCpu : Nat} {pmm : PhysicalMemory}
    (h : Booting new boot smp devices entry (start threads curCpu pmm) k₁ k₂)
    (hbsp : ∃ info ∈ smp.cpus, info.lapicId = smp.bspLapicId) :
    (∀ es s, Run Scheduler.Step k₂.sched es s →
      s.curCpu = s.curCpuCore ∧ s.getCurCPU.processorId = s.curCpuCore ∧ s.curCpuCore < 256) ↔
        smp.bspLapicId = 0 := by
  obtain ⟨-, -, -, hcore₁, hcpu₁⟩ := beforeThreads_some h.before
  obtain ⟨-, hcore, hcpu, hnumber⟩ := startThreads_some h.threads
  rw [hcore₁] at hcore
  rw [hcpu₁] at hcpu
  constructor
  · intro hall
    obtain ⟨hsame, -, -⟩ := hall [] k₂.sched .nil
    rw [hcore, hcpu] at hsame
    exact BitVec.eq_of_toNat_eq hsame
  · intro hzero es s hrun
    obtain ⟨bsp, hmem, hlapic⟩ := hbsp
    have hsame := run_sameCpus hrun
    have hcpu' : s.curCpu = 0 := by rw [hsame.cpu, hcpu, hzero]; rfl
    have hcore' : s.curCpuCore = 0 := hsame.core.trans hcore
    have hproc := hnumber bsp hmem
    rw [hlapic, hzero] at hproc
    refine ⟨hcpu'.trans hcore'.symm, ?_, by rw [hcore']; decide⟩
    rw [getCurCPU, hcpu', hsame.processorId, hcore']
    exact hproc

/-- The records are consistent exactly when the numbering starts at 0 and stays
below 256. -/
theorem consistent_iff {threads : ThreadPtr → Thread} {curCpu : Nat} {pmm : PhysicalMemory}
    (h : Booting new boot smp devices entry (start threads curCpu pmm) k₁ k₂)
    (hbsp : ∃ info ∈ smp.cpus, info.lapicId = smp.bspLapicId) : Consistent k₁ k₂ ↔ FromZero smp := by
  constructor
  · intro hcons
    have hzero := (h.queue_iff hbsp).mp hcons.queue
    refine ⟨hzero, ?_, (h.inArray_iff hbsp).mp hcons.inArray⟩
    rw [← hzero]
    exact (hasKstack_iff h.before).mp hcons.kstack
  · intro hfrom
    refine ⟨(h.inArray_iff hbsp).mpr hfrom.inArray, (hasKstack_iff h.before).mpr ?_,
      (h.queue_iff hbsp).mpr hfrom.bsp⟩
    rw [hfrom.bsp]
    exact hfrom.processor

end

-- ---------------------------------------------------------------------------
-- A machine that boots
-- ---------------------------------------------------------------------------

section
variable {own : Set Nat} {last : Nat} {k : Boot} {cpus : List SmpInfo} {smp : SmpResponse}

theorem initializeCpus_isSome (hs : PhysicalMemory.Sane own k.pmm) (hstock : Stock own k.pmm last)
    (hroom : k.pmm.lastI + 4 * cpus.length ≤ last) :
    ∃ k', cpus.foldlM initializeCpu k = some k' ∧ PhysicalMemory.Sane own k'.pmm ∧
      Stock own k'.pmm last ∧
      k'.pmm.lastI = k.pmm.lastI + 4 * cpus.length ∧ k'.pmm.mmap = k.pmm.mmap ∧
      k'.sched.schedMutex = k.sched.schedMutex := by
  induction cpus generalizing k with
  | nil => exact ⟨k, rfl, hs, hstock, rfl, rfl, rfl⟩
  | cons info cpus ih =>
    rw [List.length_cons] at hroom
    obtain ⟨p, pmm, halloc, hal, hstock', hcursor⟩ :=
      hstock.allocated hs (n := 4) (by decide) (by omega)
    obtain ⟨k₁, hk₁, hpmm, hmutex⟩ : ∃ k₁, k.initializeCpu info = some k₁ ∧ k₁.pmm = pmm ∧
        k₁.sched.schedMutex = k.sched.schedMutex := by
      simp only [initializeCpu, Scheduler.initializeCpu, halloc]
      exact ⟨_, rfl, rfl, rfl⟩
    rw [← hpmm] at hal hstock' hcursor
    obtain ⟨k', hk', hs', hst', hcur', hmmap', hmutex'⟩ := ih (k := k₁) hal.sane hstock' (by omega)
    refine ⟨k', ?_, hs', hst', ?_, hmmap'.trans hal.grow.mmap, hmutex'.trans hmutex⟩
    · rw [List.foldlM_cons, hk₁]
      exact hk'
    · rw [hcur', hcursor, List.length_cons]
      omega

theorem beforeThreads_of {boot : BootInfo} {devices : PhysicalMemory → Option PhysicalMemory}
    {p dir : Nat}
    {s₁ s₂ s₃ : PhysicalMemory} (halloc : k.pmm.alloc 4 = some (p, s₁))
    (hinit : initializeMemory boot s₁ = some (dir, s₂))
    (hdevices : devices s₂ = some s₃) :
    ∃ k', k.beforeThreads boot smp devices = smp.cpus.foldlM initializeCpu k' ∧ k'.pmm = s₃ ∧
      k'.sched.schedMutex = false := by
  have hgdt : k.setupGdt 0 = some (useCpu { k with pmm := s₁ } 0) := by
    rw [setupGdt, halloc]
    rfl
  rw [beforeThreads, hgdt]
  simp only [Option.bind_eq_bind, Option.bind_some]
  rw [useCpu]
  simp only [hinit, Option.bind_some, hdevices]
  exact ⟨_, rfl, rfl, rfl⟩

theorem startThreads_of {new : New} {boot : BootInfo} {entry : BitVec 64} {t : ThreadPtr}
    {thread : Thread}
    {s₁ s₂ : PhysicalMemory} {sched : Scheduler} (hnew : new k.pmm threadSize = some (t, s₁))
    (hc : Thread.construct boot k.sched.getCurCPU.kstackPhys s₁ entry false = some (thread, s₂))
    (hadd : k.sched.addEntry t entry false thread.rootTable = some sched) :
    k.startThreads new boot smp entry =
      some (smp.cpus.foldl numberCpu (useCpu { k with sched, pmm := s₂ } sched.curCpuCore)) := by
  simp only [startThreads, addThread, hnew, hc, hadd, Option.bind_eq_bind, Option.bind_some]

def pageNew : New := fun s _ => s.alloc 1

def emptyThreads : ThreadPtr → Thread := fun _ => .build 0 false 0

abbrev highStart : Boot := start emptyThreads 0 highMachine

theorem highMachine_kernelEntry (hcpus : smp.cpus.length ≤ 1000) :
    ∃ k₂, highStart.kernelEntry pageNew highBoot smp some 0xffffffff80000000 = some k₂ := by
  -- up to the first thread
  obtain ⟨p, s₁, halloc, hal, hstock₁, hcursor₁⟩ :=
    highMachine_stock.allocated highMachine_sane_seek (n := 4) (by decide) (by decide)
  rw [← highMachine_skip (by decide) (by decide)] at halloc
  simp only at hcursor₁
  have hmmap₁ : s₁.mmap = highMachine.mmap := hal.grow.mmap
  have hsum : ((kernelWindows highBoot s₁.mmap).map Window.pages).sum = 1048578 := by
    simp only [kernelWindows, List.map_cons, List.map_nil, List.sum_cons, List.sum_nil,
      kernelWindow_pages, directWindow_pages, framebufferWindow_pages, hmmap₁, highMachine_framebuffer]
    decide
  have hbase : (framebufferEntry s₁.mmap).1 ≠ 0 := by
    rw [hmmap₁, highMachine_framebuffer]
    decide
  obtain ⟨dir, s₂, hinit, hstock₂, hle₂⟩ : ∃ dir s₂, initializeMemory highBoot s₁ = some (dir, s₂) ∧
      Stock highOwn s₂ 0x900000 ∧ s₂.lastI ≤ 0x100004 + 1 + 3 * 1048578 := by
    rw [← hsum, ← show s₁.lastI = 0x100004 from hcursor₁]
    exact initializeMemory_isSome hal.sane hstock₁ hbase (by rw [hsum, hcursor₁]; decide)
  obtain ⟨-, hgrow, used, -, hspace, -⟩ := initializeMemory_ok hal.sane hinit
  obtain ⟨k, hbefore, hpmm, hmutex⟩ :
    ∃ k, highStart.beforeThreads highBoot smp some = smp.cpus.foldlM initializeCpu k ∧
      k.pmm = s₂ ∧ k.sched.schedMutex = false := beforeThreads_of halloc hinit rfl
  have hroom : k.pmm.lastI + 4 * smp.cpus.length ≤ 0x900000 := by
    rw [hpmm]
    omega
  obtain ⟨k₁, hk₁, hs₁, hstock, hcursor, hmmap, hmutex₁⟩ :=
    initializeCpus_isSome (hpmm ▸ hspace.sane) (hpmm ▸ hstock₂) hroom
  -- the first thread
  have hmmap' : k₁.pmm.mmap = highMachine.mmap := by rw [hmmap, hpmm, hgrow.mmap, hmmap₁]
  rw [hpmm] at hcursor
  obtain ⟨t, s₃, hnew, hal₃, hstock₃, hcursor₃⟩ := hstock.allocated hs₁ (le_refl 1) (by omega)
  have hsum' : ((Thread.windows highBoot s₃.mmap 0 0).map Window.pages).sum = 1048599 := by
    have hstack : (Thread.stackWindow 0).pages = 16 := by decide
    have hkstack : (Thread.kstackWindow 0).pages = 5 := by decide
    have hsize : highBoot.kernelSize = 0x1000 := rfl
    simp only [Thread.windows, List.map_cons, List.map_nil, List.sum_cons, List.sum_nil,
      kernelWindow_pages, hsize, directWindow_pages, framebufferWindow_pages, hal₃.grow.mmap,
      hmmap', highMachine_framebuffer, hstack, hkstack]
    decide
  have hpages : Thread.stackPages = 65536 := by decide
  have hroom' : s₃.lastI + Thread.stackPages + 1 +
      3 * ((Thread.windows highBoot s₃.mmap 0 0).map Window.pages).sum ≤ 0x900000 := by
    rw [hsum', hpages, hcursor₃, hcursor]
    omega
  obtain ⟨thread, s₄, hc, -⟩ :=
    Thread.construct_isSome k₁.sched.getCurCPU.kstackPhys 0xffffffff80000000 false hal₃.sane
    hstock₃ hroom'
  obtain ⟨sched, hadd⟩ :
    ∃ sched, k₁.sched.addEntry t 0xffffffff80000000 false thread.rootTable = some sched := by
    rw [addEntry, lock, hmutex₁, hmutex]
    exact ⟨_, rfl⟩
  exact ⟨_, kernelEntry_some_iff.mpr ⟨k₁, hbefore.trans hk₁, startThreads_of hnew hc hadd⟩⟩

def twoCpus : SmpResponse := ⟨0, [⟨0, 0⟩, ⟨1, 1⟩]⟩

theorem consistent_iff_twoCpus :
    ∃ k₁ k₂, Booting pageNew highBoot twoCpus some 0xffffffff80000000 highStart k₁ k₂ ∧
      Consistent k₁ k₂ := by
  obtain ⟨k₂, hentry⟩ := highMachine_kernelEntry (show twoCpus.cpus.length ≤ 1000 by decide)
  obtain ⟨k₁, h⟩ := kernelEntry_some_iff.mp hentry
  refine ⟨k₁, k₂, h, (consistent_iff h (by decide)).mpr ⟨rfl, by decide, by decide⟩⟩

def fromOne : SmpResponse := ⟨0, [⟨1, 0⟩, ⟨2, 1⟩]⟩

def bspOne : SmpResponse := ⟨1, [⟨0, 0⟩, ⟨1, 1⟩]⟩

/-- With `fromOne` the first thread finds no kernel stack; with `bspOne` it is
put into a queue that nobody reads. -/
theorem fromOne_not_consistent :
    (∃ k₁ k₂, Booting pageNew highBoot fromOne some 0xffffffff80000000 highStart k₁ k₂ ∧
      ¬Consistent k₁ k₂) ∧
      ∃ k₁ k₂, Booting pageNew highBoot bspOne some 0xffffffff80000000 highStart k₁ k₂ ∧
      ¬Consistent k₁ k₂ := by
  constructor
  · obtain ⟨k₂, hentry⟩ := highMachine_kernelEntry (show fromOne.cpus.length ≤ 1000 by decide)
    obtain ⟨k₁, h⟩ := kernelEntry_some_iff.mp hentry
    refine ⟨k₁, k₂, h, fun hcons => ?_⟩
    have hstack := (hasKstack_iff h.before).mp hcons.kstack
    revert hstack
    decide
  · obtain ⟨k₂, hentry⟩ := highMachine_kernelEntry (show bspOne.cpus.length ≤ 1000 by decide)
    obtain ⟨k₁, h⟩ := kernelEntry_some_iff.mp hentry
    refine ⟨k₁, k₂, h, fun hcons => ?_⟩
    have hbsp := (h.queue_iff (by decide)).mp hcons.queue
    exact absurd hbsp (by decide)

end

end Boot

end LimineOS
