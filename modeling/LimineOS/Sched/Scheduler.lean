import LimineOS.Sched.Task

/-!
# The scheduler

The task queue of each processor is a linked list of threads with a cursor.
`Scheduler` holds the heap of threads, the per-processor records and the
scheduler's globals, together with what a dispatch loads into the processor.
Each function is one atomic step; a step that would spin on a held lock or go
through a null pointer gives `none`.
-/

namespace LimineOS

structure TaskQueue where
  head : Option ThreadPtr := none
  tail : Option ThreadPtr := none
  current : Option ThreadPtr := none
  numThreads : Int := 0
  deriving DecidableEq, Repr

structure CPU where
  taskQueue : TaskQueue := {}
  processorId : Nat := 0
  kstackPhys : Nat := 0
  deriving DecidableEq, Repr

/-- `curCpu` is the processor whose record `GetCurCPU` finds in the base
register; `currentDir`, `cr3` and `loaded` are the address space and the
context that the last dispatch has put in place. -/
structure Scheduler where
  threads : ThreadPtr → Thread
  cpus : Nat → CPU := fun _ => {}
  schedMutex : Bool := false
  curPid : Int := 0
  curCpuCore : Nat := 0
  curCpu : Nat
  currentDir : Nat := 0
  cr3 : Nat := 0
  loaded : Option SavedRegs := none

def incr32 (n : Int) : Int := (n + 1).bmod (2 ^ 32)

def count32 (n : Nat) : Int := (n : Int).bmod (2 ^ 32)

theorem incr32_count32 (n : Nat) : incr32 (count32 n) = count32 (n + 1) := by
  unfold incr32 count32
  rw [Int.bmod_add_bmod]
  exact congrArg (Int.bmod · (2 ^ 32)) (Int.natCast_add n 1).symm

theorem count32_of_lt (n : Nat) (h : n < 2 ^ 31) : count32 n = n := by
  unfold count32
  exact Int.bmod_eq_of_le_mul_two (by omega) (by omega)

namespace Scheduler

def getCurCPU (s : Scheduler) : CPU := s.cpus s.curCpu

def lock (s : Scheduler) : Option Scheduler :=
  if s.schedMutex then none else some { s with schedMutex := true }

def unlock (s : Scheduler) : Scheduler := { s with schedMutex := false }

def modifyThread (s : Scheduler) (t : ThreadPtr) (f : Thread → Thread) : Scheduler :=
  { s with threads := Function.update s.threads t (f (s.threads t)) }

def modifyQueue (s : Scheduler) (id : Nat) (f : TaskQueue → TaskQueue) : Scheduler :=
  { s with cpus := Function.update s.cpus id { s.cpus id with taskQueue := f (s.cpus id).taskQueue } }

abbrev queue (s : Scheduler) (id : Nat) : TaskQueue := (s.cpus id).taskQueue

def setPid (s : Scheduler) (t : ThreadPtr) : Scheduler :=
  { s.modifyThread t fun th => { th with pid := s.curPid } with curPid := incr32 s.curPid }

def linkTail (s : Scheduler) (t : ThreadPtr) : Scheduler :=
  match (s.queue s.curCpuCore).tail with
  | some tail => s.modifyThread tail fun th => { th with next := some t }
  | none => s

def enqueue (s : Scheduler) (t : ThreadPtr) : Scheduler :=
  ((s.setPid t).linkTail t).modifyQueue s.curCpuCore fun queue =>
    { queue with
      head := queue.head.or (some t)
      tail := some t
      numThreads := incr32 queue.numThreads }

/-- `AddThread(entry, is_user)`, where `new` put the thread at `t` and its
constructor gave it `rootTable`. -/
def addEntry (s : Scheduler) (t : ThreadPtr) (entry : BitVec 64) (isUser : Bool) (rootTable : Nat) :
    Option Scheduler :=
  s.lock.map fun s => ((s.modifyThread t fun _ => .build entry isUser rootTable).enqueue t).unlock

/-- `AddThread(t)`. It does not take the lock that it releases. -/
def addThread (s : Scheduler) (t : ThreadPtr) : Scheduler := (s.enqueue t).unlock

/-- Moves the cursor until it stands on a thread that can run. The recursion
of the source has no bound; `none` is a null dereference or too little fuel. -/
def getNextThread : Nat → Scheduler → Nat → Option (Option ThreadPtr × Scheduler)
  | 0, _, _ => none
  | fuel + 1, s, processorId =>
    let queue := s.queue processorId
    if queue.numThreads = 0 then some (none, s)
    else do
      let current ← queue.current.or queue.head
      let t ← (s.threads current).next.or queue.head
      let s := s.modifyQueue processorId fun queue => { queue with current := some t }
      if (s.threads t).canRun then some (some t, s) else getNextThread fuel s processorId

def dispatch (s : Scheduler) (t : ThreadPtr) : Scheduler :=
  { s with
    currentDir := (s.threads t).rootTable
    cr3 := (s.threads t).rootTable
    loaded := some (s.threads t).ctxt }

def saveContext (s : Scheduler) (regs : SavedRegs) : Scheduler :=
  match s.getCurCPU.taskQueue.current with
  | some current => s.modifyThread current fun th => { th with ctxt := regs }
  | none => s

def schedule (fuel : Nat) (s : Scheduler) (regs : SavedRegs) :
    Option (Option ThreadPtr × Scheduler) := do
  let s ← s.lock
  let s := s.saveContext regs
  let (nextThread, s) ← getNextThread fuel s s.getCurCPU.processorId
  let s := s.unlock
  match nextThread with
  | none => some (none, s)
  | some t => some (some t, s.dispatch t)

def deleteCurThread (s : Scheduler) : Option Scheduler := do
  let current ← (s.queue s.getCurCPU.processorId).current
  some (s.modifyThread current fun th => { th with canRun := false })

/-- One processor of `Initialize`: an empty queue and four pages of kernel stack. -/
def initializeCpu (s : Scheduler × PhysicalMemory) (id : Nat) :
    Option (Scheduler × PhysicalMemory) := do
  let (kstack, pmm) ← s.2.alloc 4
  let cpu := s.1.cpus id
  let queue := { cpu.taskQueue with
    current := none
    head := none
    tail := none }
  some ({ s.1 with
    cpus := Function.update s.1.cpus id { cpu with taskQueue := queue, kstackPhys := kstack } }, pmm)

def initializeCpus (s : Scheduler) (pmm : PhysicalMemory) (ids : List Nat) :
    Option (Scheduler × PhysicalMemory) :=
  ids.foldlM initializeCpu (s.unlock, pmm)

end Scheduler

end LimineOS
