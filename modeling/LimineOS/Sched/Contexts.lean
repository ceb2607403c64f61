import LimineOS.Sched.Runs
import LimineOS.Lib.Mutex

/-!
# The scheduler's lock

`AddThread` and `Schedule` step by step, for any number of contexts that
execute them at the same time. A step tests or assigns `curPid` or a member of
a task queue. The steps of `AddThread(entry)` between the lock and the unlock
make `addEntry`, and those of `Schedule` make `schedule`; `AddThread(t)`
unlocks what it has not locked.
-/

namespace LimineOS

open Transition Mutex

namespace Scheduler

inductive Op
  | addEntry (t : ThreadPtr) (entry : BitVec 64) (isUser : Bool) (rootTable : Nat)
  | addThread (t : ThreadPtr)
  | schedule (cpu : Nat) (regs : SavedRegs)
  deriving DecidableEq

inductive Stage
  | lock
  | build
  | readPid
  | writePid (p : Int)
  | readHead
  | writeHead
  | readTail
  | linkTail (tail : ThreadPtr)
  | writeTail
  | readCount
  | writeCount (n : Int)
  | readCurrent
  | saveContext (current : ThreadPtr)
  | anyThreads
  | readCursor
  | resetCursor
  | readNext
  | moveCursor (t : ThreadPtr)
  | canRun (t : ThreadPtr)
  | unlock
  deriving DecidableEq

def stepAdd (t : ThreadPtr) (s : Scheduler) : Stage → Option (Option Stage × Scheduler)
  | .readPid => some (some (.writePid s.curPid), s)
  | .writePid p =>
    some (some .readHead, { s.modifyThread t fun th => { th with pid := p } with curPid := incr32 p })
  | .readHead => some (some (if (s.queue s.curCpuCore).head = none then .writeHead else .readTail), s)
  | .writeHead =>
    some (some .readTail, s.modifyQueue s.curCpuCore fun queue => { queue with head := some t })
  | .readTail =>
    match (s.queue s.curCpuCore).tail with
    | some tail => some (some (.linkTail tail), s)
    | none => some (some .writeTail, s)
  | .linkTail tail => some (some .writeTail, s.modifyThread tail fun th => { th with next := some t })
  | .writeTail =>
    some (some .readCount, s.modifyQueue s.curCpuCore fun queue => { queue with tail := some t })
  | .readCount => some (some (.writeCount (s.queue s.curCpuCore).numThreads), s)
  | .writeCount n =>
    some (some .unlock, s.modifyQueue s.curCpuCore fun queue => { queue with numThreads := incr32 n })
  | _ => none

/-- `Schedule` on a processor, up to the unlock. What follows it is the
dispatch of the thread that was found. -/
def stepSchedule (cpu : Nat) (regs : SavedRegs) (s : Scheduler) :
    Stage → Option (Option Stage × Scheduler)
  | .readCurrent =>
    match (s.queue cpu).current with
    | some current => some (some (.saveContext current), s)
    | none => some (some .anyThreads, s)
  | .saveContext current =>
    some (some .anyThreads, s.modifyThread current fun th => { th with ctxt := regs })
  | .anyThreads =>
    some (some (if (s.queue (s.cpus cpu).processorId).numThreads = 0 then .unlock else .readCursor), s)
  | .readCursor =>
    some (some (if (s.queue (s.cpus cpu).processorId).current = none then .resetCursor
      else .readNext), s)
  | .resetCursor =>
    some (some .readNext,
      s.modifyQueue (s.cpus cpu).processorId fun queue => { queue with current := queue.head })
  | .readNext => do
    let current ← (s.queue (s.cpus cpu).processorId).current
    let t ← (s.threads current).next.or (s.queue (s.cpus cpu).processorId).head
    some (some (.moveCursor t), s)
  | .moveCursor t =>
    some (some (.canRun t),
      s.modifyQueue (s.cpus cpu).processorId fun queue => { queue with current := some t })
  | .canRun t => some (some (if (s.threads t).canRun then .unlock else .anyThreads), s)
  | _ => none

def step : Op → Stage → Scheduler → Option (Option Stage × Scheduler)
  | _, .unlock, s => some (none, s.unlock)
  | .addEntry _ _ _ _, .lock, s => s.lock.map fun s => (some .build, s)
  | .addEntry t entry isUser rootTable, .build, s =>
    some (some .readPid, s.modifyThread t fun _ => .build entry isUser rootTable)
  | .addEntry t _ _ _, c, s => stepAdd t s c
  | .addThread t, c, s => stepAdd t s c
  | .schedule _ _, .lock, s => s.lock.map fun s => (some .readCurrent, s)
  | .schedule cpu regs, c, s => stepSchedule cpu regs s c

def Stage.kind : Stage → Kind
  | .lock => .acquire
  | .unlock => .release
  | .build | .saveContext _ | .canRun _ => .other
  | _ => .access

def program : Program Scheduler Op Stage where
  start
    | .addEntry _ _ _ _ => .lock
    | .addThread _ => .readPid
    | .schedule _ _ => .lock
  kind := Stage.kind
  next := step

section
variable {s s' d : Scheduler} {op : Op} {c : Stage} {c' : Option Stage} {t : ThreadPtr} {cpu : Nat}
  {regs : SavedRegs}

structure Inner (c : Stage) (s : Scheduler) (c' : Option Stage) (s' : Scheduler) : Prop where
  kind : c.kind = .access ∨ c.kind = .other
  next : ∃ c₁, c' = some c₁ ∧ c₁.kind ≠ .acquire
  mutex : s'.schedMutex = s.schedMutex

theorem stepAdd_inner (h : stepAdd t s c = some (c', s')) : Inner c s c' s' := by
  cases c with
  | readHead =>
    obtain ⟨rfl, rfl⟩ := Prod.mk.inj (Option.some.inj h)
    refine ⟨.inl rfl, ⟨_, rfl, ?_⟩, rfl⟩
    split_ifs <;> decide
  | readTail =>
    rw [stepAdd] at h
    split at h
    · obtain ⟨rfl, rfl⟩ := Prod.mk.inj (Option.some.inj h)
      exact ⟨.inl rfl, ⟨_, rfl, by simp [Stage.kind]⟩, rfl⟩
    · obtain ⟨rfl, rfl⟩ := Prod.mk.inj (Option.some.inj h)
      exact ⟨.inl rfl, ⟨_, rfl, by decide⟩, rfl⟩
  | readPid | writePid | writeHead | linkTail | writeTail | readCount | writeCount =>
    obtain ⟨rfl, rfl⟩ := Prod.mk.inj (Option.some.inj h)
    exact ⟨.inl rfl, ⟨_, rfl, by simp [Stage.kind]⟩, rfl⟩
  | _ => simp [stepAdd] at h

theorem stepSchedule_inner (h : stepSchedule cpu regs s c = some (c', s')) : Inner c s c' s' := by
  cases c with
  | readCurrent =>
    rw [stepSchedule] at h
    split at h
    · obtain ⟨rfl, rfl⟩ := Prod.mk.inj (Option.some.inj h)
      exact ⟨.inl rfl, ⟨_, rfl, by simp [Stage.kind]⟩, rfl⟩
    · obtain ⟨rfl, rfl⟩ := Prod.mk.inj (Option.some.inj h)
      exact ⟨.inl rfl, ⟨_, rfl, by decide⟩, rfl⟩
  | anyThreads | readCursor =>
    obtain ⟨rfl, rfl⟩ := Prod.mk.inj (Option.some.inj h)
    refine ⟨.inl rfl, ⟨_, rfl, ?_⟩, rfl⟩
    split_ifs <;> decide
  | canRun t =>
    obtain ⟨rfl, rfl⟩ := Prod.mk.inj (Option.some.inj h)
    refine ⟨.inr rfl, ⟨_, rfl, ?_⟩, rfl⟩
    split_ifs <;> decide
  | readNext =>
    simp only [stepSchedule, Option.bind_eq_bind, Option.bind_eq_some_iff] at h
    obtain ⟨current, -, t, -, h⟩ := h
    obtain ⟨rfl, rfl⟩ := Prod.mk.inj (Option.some.inj h)
    exact ⟨.inl rfl, ⟨_, rfl, by simp [Stage.kind]⟩, rfl⟩
  | saveContext =>
    obtain ⟨rfl, rfl⟩ := Prod.mk.inj (Option.some.inj h)
    exact ⟨.inr rfl, ⟨_, rfl, by decide⟩, rfl⟩
  | resetCursor | moveCursor =>
    obtain ⟨rfl, rfl⟩ := Prod.mk.inj (Option.some.inj h)
    exact ⟨.inl rfl, ⟨_, rfl, by simp [Stage.kind]⟩, rfl⟩
  | _ => simp [stepSchedule] at h

theorem lock_cases {s₁ : Scheduler} (h : s.lock = some s₁) :
    s.schedMutex = false ∧ s₁ = { s with schedMutex := true } := by
  rw [lock] at h
  split_ifs at h with hmutex
  exact ⟨by simpa using hmutex, (Option.some.inj h).symm⟩

theorem step_lock {c₁ : Stage} (h : s.lock.map (fun s => (some c₁, s)) = some (c', s')) :
    s.schedMutex = false ∧ s' = { s with schedMutex := true } ∧ c' = some c₁ := by
  obtain ⟨s₁, hlock, heq⟩ := Option.map_eq_some_iff.mp h
  obtain ⟨rfl, rfl⟩ := Prod.mk.inj heq
  obtain ⟨hfree, hs⟩ := lock_cases hlock
  exact ⟨hfree, hs, rfl⟩

theorem step_cases (h : step op c s = some (c', s')) :
    (c = .lock ∧ s.schedMutex = false ∧ s' = { s with schedMutex := true } ∧
      ∃ c₁, c' = some c₁ ∧ c₁.kind ≠ .acquire) ∨
      Inner c s c' s' ∨ c = .unlock ∧ c' = none ∧ s' = s.unlock := by
  by_cases hunlock : c = .unlock
  · subst hunlock
    obtain ⟨rfl, rfl⟩ := Prod.mk.inj (Option.some.inj (by simpa [step] using h))
    exact .inr (.inr ⟨rfl, rfl, rfl⟩)
  cases op with
  | addEntry t entry isUser rootTable =>
    cases c with
    | lock =>
      obtain ⟨hfree, hs, hnext⟩ := step_lock h
      exact .inl ⟨rfl, hfree, hs, _, hnext, by decide⟩
    | build =>
      obtain ⟨rfl, rfl⟩ := Prod.mk.inj (Option.some.inj h)
      exact .inr (.inl ⟨.inr rfl, ⟨_, rfl, by decide⟩, rfl⟩)
    | unlock => exact absurd rfl hunlock
    | _ => exact .inr (.inl (stepAdd_inner (t := t) h))
  | addThread t =>
    cases c with
    | unlock => exact absurd rfl hunlock
    | _ => exact .inr (.inl (stepAdd_inner (t := t) h))
  | schedule cpu regs =>
    cases c with
    | lock =>
      obtain ⟨hfree, hs, hnext⟩ := step_lock h
      exact .inl ⟨rfl, hfree, hs, _, hnext, by decide⟩
    | unlock => exact absurd rfl hunlock
    | _ => exact .inr (.inl (stepSchedule_inner (show stepSchedule cpu regs s _ = _ from h)))

theorem Inner.kind_ne (h : Inner c s c' s') : c.kind ≠ .acquire ∧ c.kind ≠ .release := by
  rcases h.kind with hk | hk <;> simp [hk]

theorem program_lawful : program.Lawful Scheduler.schedMutex where
  acquire := by
    intro op c d c' d' h hk
    rcases step_cases h with ⟨-, hfree, rfl, -⟩ | hinner | ⟨rfl, -⟩
    · exact ⟨hfree, rfl⟩
    · exact absurd hk hinner.kind_ne.1
    · exact absurd hk (by decide)
  release := by
    intro op c d c' d' h hk
    rcases step_cases h with ⟨rfl, -⟩ | hinner | ⟨-, hend, rfl⟩
    · exact absurd hk (by decide)
    · exact absurd hk hinner.kind_ne.2
    · exact ⟨rfl, hend⟩
  keep := by
    intro op c d c' d' h hacq hrel
    rcases step_cases h with ⟨rfl, -⟩ | hinner | ⟨rfl, -⟩
    · exact absurd rfl hacq
    · exact hinner.mutex
    · exact absurd rfl hrel
  inner := by
    intro op c d c' d' h hrel
    rcases step_cases h with ⟨-, -, -, hnext⟩ | hinner | ⟨rfl, -⟩
    · exact hnext
    · exact hinner.next
    · exact absurd rfl hrel
  first := by
    intro op
    cases op with
    | addThread => exact fun h => nomatch h
    | addEntry | schedule => exact fun h => nomatch h

-- ---------------------------------------------------------------------------
-- Operations alone
-- ---------------------------------------------------------------------------

theorem modifyQueue_congr {id : Nat} {f g : TaskQueue → TaskQueue}
    (h : f (s.queue id) = g (s.queue id)) :
    s.modifyQueue id f = s.modifyQueue id g := by
  rw [modifyQueue, modifyQueue, h]

theorem modifyQueue_self {id : Nat} {f : TaskQueue → TaskQueue} (h : f (s.queue id) = s.queue id) :
    s.modifyQueue id f = s := by
  rw [modifyQueue, h]
  simp only [queue, Function.update_eq_self]

theorem completes_unlock : program.Completes op .unlock s d ↔ s.unlock = d := Program.completes_last rfl

def setHead (s : Scheduler) (t : ThreadPtr) : Scheduler :=
  s.modifyQueue s.curCpuCore fun queue => { queue with head := queue.head.or (some t) }

theorem linkTail_setHead :
    (s.setHead t).linkTail t = (s.linkTail t).modifyQueue s.curCpuCore fun queue =>
    { queue with head := queue.head.or (some t) } := by
  have htail : ((s.setHead t).queue (s.setHead t).curCpuCore).tail = (s.queue s.curCpuCore).tail := by
    show ((s.setHead t).queue s.curCpuCore).tail = _
    rw [setHead, queue_modifyQueue]
  unfold linkTail
  rw [htail]
  cases (s.queue s.curCpuCore).tail with
  | none => rfl
  | some tail => rfl

theorem linkTail_curCpuCore : (s.linkTail t).curCpuCore = s.curCpuCore := by
  unfold linkTail
  split <;> rfl

theorem completes_add
    (hop : ∀ c s c₁ s₁, stepAdd t s c = some (some c₁, s₁) → step op c s = some (some c₁, s₁)) :
    program.Completes op .readPid s d ↔ (s.enqueue t).unlock = d := by
  have hnext : ∀ {c s e u}, stepAdd t s c = some (some e, u) →
      (program.Completes op c s d ↔ program.Completes op e u d) :=
        fun h => Program.completes_of_next (hop _ _ _ _ h)
  have hhead : ∀ s : Scheduler, program.Completes op .readHead s d ↔
      program.Completes op .readTail (s.setHead t) d := by
    intro s
    rw [hnext rfl]
    cases hq : (s.queue s.curCpuCore).head with
    | none =>
      have hset : s.modifyQueue s.curCpuCore (fun queue => { queue with head := some t }) =
          s.setHead t :=
        modifyQueue_congr (by simp only [hq, Option.none_or])
      rw [if_pos rfl, hnext rfl, hset]
    | some head =>
      have hset : s.setHead t = s := modifyQueue_self (by simp only [hq, Option.some_or]; rw [← hq])
      rw [if_neg (by simp), hset]
  have htail : ∀ s : Scheduler, program.Completes op .readTail s d ↔
      program.Completes op .writeTail (s.linkTail t) d := by
    intro s
    cases hq : (s.queue s.curCpuCore).tail with
    | none =>
      rw [hnext (e := .writeTail) (u := s) (by simp only [stepAdd, hq])]
      simp only [linkTail, hq]
    | some tail =>
      rw [hnext (e := .linkTail tail) (u := s) (by simp only [stepAdd, hq]), hnext rfl]
      simp only [linkTail, hq]
  -- the three writes to the queue make one
  have hqueue : ∀ (s : Scheduler) (id : Nat) (f g : TaskQueue → TaskQueue),
      ((s.modifyQueue id f).modifyQueue id g).modifyQueue id (fun queue =>
        { queue with
          numThreads := incr32 (((s.modifyQueue id f).modifyQueue id g).queue id).numThreads }) =
      s.modifyQueue id fun queue =>
        { g (f queue) with numThreads := incr32 (g (f queue)).numThreads } := by
    intro s id f g
    simp only [modifyQueue_modifyQueue]
    exact modifyQueue_congr (by simp only [queue_modifyQueue, Function.comp_apply])
  have hcore : ((s.setPid t).linkTail t).curCpuCore = (s.setPid t).curCpuCore := linkTail_curCpuCore
  rw [hnext rfl, hnext (e := .readHead) (u := s.setPid t) rfl, hhead, htail, linkTail_setHead,
    ← hcore, hnext rfl, hnext rfl, hnext rfl, completes_unlock]
  have hwrites := hqueue ((s.setPid t).linkTail t) ((s.setPid t).linkTail t).curCpuCore
    (fun queue => { queue with head := queue.head.or (some t) }) fun queue =>
      { queue with tail := some t }
  have henqueue : s.enqueue t = ((s.setPid t).linkTail t).modifyQueue
      ((s.setPid t).linkTail t).curCpuCore fun queue =>
      { queue with
        head := queue.head.or (some t)
        tail := some t
        numThreads := incr32 queue.numThreads } := by
    rw [hcore]
    rfl
  rw [henqueue, ← hwrites]
  rfl

theorem lock_eq (h : s.schedMutex = false) : s.lock = some { s with schedMutex := true } := by
  rw [lock, h]
  rfl

theorem completes_lock {c₁ : Stage} (hop : ∀ s, step op .lock s = s.lock.map fun s => (some c₁, s)) :
    program.Completes op .lock s d ↔ s.schedMutex = false ∧
      program.Completes op c₁ { s with schedMutex := true } d := by
  cases hmutex : s.schedMutex with
  | false =>
    have hstep : program.next op .lock s = some (some c₁, { s with schedMutex := true }) := by
      show step op .lock s = _
      rw [hop, lock_eq hmutex, Option.map_some]
    rw [Program.completes_of_next hstep]
    simp
  | true =>
    have hstep : program.next op .lock s = none := by
      show step op .lock s = _
      rw [hop, lock, hmutex]
      rfl
    refine iff_of_false ?_ (by simp)
    rintro (hlast | ⟨hnext, -⟩)
    · simp [hstep] at hlast
    · simp [hstep] at hnext

theorem completes_addEntry {entry : BitVec 64} {isUser : Bool} {rootTable : Nat} :
    program.Completes (.addEntry t entry isUser rootTable) .lock s d ↔
      s.addEntry t entry isUser rootTable = some d := by
  have hadd : ∀ c s c₁ s₁, stepAdd t s c = some (some c₁, s₁) →
      step (.addEntry t entry isUser rootTable) c s = some (some c₁, s₁) := by
    intro c s c₁ s₁ h
    cases c with
    | lock | build | unlock => simp [stepAdd] at h
    | _ => exact h
  have hbuild : ∀ s, program.next (.addEntry t entry isUser rootTable) .build s =
      some (some .readPid, s.modifyThread t fun _ => .build entry isUser rootTable) := fun _ => rfl
  rw [completes_lock fun s => rfl, Program.completes_of_next (hbuild _), completes_add hadd, addEntry]
  cases hmutex : s.schedMutex with
  | false =>
    rw [lock_eq hmutex, Option.map_some, Option.some_inj]
    exact and_iff_right rfl
  | true =>
    rw [lock, hmutex]
    simp

theorem completes_addThread : program.Completes (.addThread t) .readPid s d ↔ s.addThread t = d := by
  refine completes_add fun c s c₁ s₁ h => ?_
  cases c with
  | unlock => simp [stepAdd] at h
  | _ => exact h

def Searches (cpu : Nat) (d s : Scheduler) : Prop :=
  ∃ fuel next s', getNextThread fuel s (s.cpus cpu).processorId = some (next, s') ∧ s'.unlock = d

def Remains (cpu : Nat) (d : Scheduler) : Stage → Scheduler → Prop
  | .anyThreads, s => Searches cpu d s
  | .readCursor, s | .readNext, s =>
    (s.queue (s.cpus cpu).processorId).numThreads ≠ 0 → Searches cpu d s
  | .resetCursor, s => (s.queue (s.cpus cpu).processorId).numThreads ≠ 0 →
      (s.queue (s.cpus cpu).processorId).current = none → Searches cpu d s
  | .moveCursor t, s => (s.queue (s.cpus cpu).processorId).numThreads ≠ 0 →
      (∃ c, (s.queue (s.cpus cpu).processorId).current = some c ∧
        (s.threads c).next.or (s.queue (s.cpus cpu).processorId).head = some t) → Searches cpu d s
  | .canRun t, s => if (s.threads t).canRun then s.unlock = d else Searches cpu d s
  | .unlock, s => s.unlock = d
  | _, _ => True

theorem getNextThread_moves {fuel id : Nat} {current : ThreadPtr} (hcount : (s.queue id).numThreads ≠ 0)
    (hcurrent : (s.queue id).current.or (s.queue id).head = some current)
    (hnext : (s.threads current).next.or (s.queue id).head = some t) :
    getNextThread (fuel + 1) s id =
      if (s.threads t).canRun then some (some t, s.setCurrent id t)
        else getNextThread fuel (s.setCurrent id t) id := by
  rw [getNextThread]
  simp only [if_neg hcount, hcurrent, hnext, Option.bind_eq_bind, Option.bind_some]
  rfl

/-- `queue.current = queue.head` does not change what is found. -/
theorem getNextThread_resetCursor {fuel id : Nat} (hcount : (s.queue id).numThreads ≠ 0)
    (hnone : (s.queue id).current = none) :
    getNextThread fuel (s.modifyQueue id fun queue => { queue with current := queue.head }) id =
      getNextThread fuel s id := by
  cases fuel with
  | zero => rfl
  | succ fuel =>
    have hset : ∀ t, (s.modifyQueue id fun queue => { queue with current := queue.head }).modifyQueue id
        (fun queue => { queue with current := some t }) = s.modifyQueue id fun queue =>
          { queue with current := some t } :=
      fun t => modifyQueue_modifyQueue
    rw [getNextThread, getNextThread]
    simp only [queue_modifyQueue, if_neg hcount, modifyQueue_threads, hset, hnone, Option.or_self,
      Option.none_or]
    rfl

theorem completes_remains (h : program.Completes (.schedule cpu regs) c s d) : Remains cpu d c s := by
  induction h with
  | @last c s d h =>
    rcases step_cases h with ⟨-, -, -, c₁, hnone, -⟩ | hinner | ⟨rfl, -, rfl⟩
    · simp at hnone
    · obtain ⟨c₁, hnone, -⟩ := hinner.next
      simp at hnone
    · exact rfl
  | @step c s c₁ s₁ d h _ ih =>
    cases c with
    | anyThreads =>
      obtain ⟨rfl, rfl⟩ : _ = c₁ ∧ s = s₁ := by simpa [program, step, stepSchedule] using h
      split_ifs at ih with hcount
      · refine ⟨1, none, s, ?_, ih⟩
        rw [getNextThread]
        exact if_pos hcount
      · exact ih hcount
    | readCursor =>
      obtain ⟨rfl, rfl⟩ : _ = c₁ ∧ s = s₁ := by simpa [program, step, stepSchedule] using h
      intro hcount
      split_ifs at ih with hnone
      · exact ih hcount hnone
      · exact ih hcount
    | resetCursor =>
      obtain ⟨rfl, rfl⟩ : Stage.readNext = c₁ ∧ _ = s₁ := by simpa [program, step, stepSchedule] using h
      intro hcount hnone
      obtain ⟨fuel, next, s', hsearch, hd⟩ :=
        ih (by rw [modifyQueue_processorId, queue_modifyQueue]; exact hcount)
      rw [modifyQueue_processorId, getNextThread_resetCursor hcount hnone] at hsearch
      exact ⟨fuel, next, s', hsearch, hd⟩
    | readNext =>
      intro hcount
      simp only [program, step, stepSchedule, Option.bind_eq_bind, Option.bind_eq_some_iff] at h
      obtain ⟨current, hcurrent, t, hnext, h⟩ := h
      obtain ⟨rfl, rfl⟩ : Stage.moveCursor t = c₁ ∧ s = s₁ := by simpa using h
      exact ih hcount ⟨current, hcurrent, hnext⟩
    | moveCursor t =>
      rintro hcount ⟨current, hcurrent, hnext⟩
      obtain ⟨rfl, rfl⟩ : Stage.canRun t = c₁ ∧ s.setCurrent (s.cpus cpu).processorId t = s₁ := by
        simpa [program, step, stepSchedule, setCurrent] using h
      have hor : (s.queue (s.cpus cpu).processorId).current.or
          (s.queue (s.cpus cpu).processorId).head = some current := by
        rw [hcurrent]
        rfl
      by_cases hrun : (s.threads t).canRun
      · refine ⟨1, some t, s.setCurrent (s.cpus cpu).processorId t, ?_, (if_pos hrun).mp ih⟩
        rw [getNextThread_moves hcount hor hnext, if_pos hrun]
      · obtain ⟨fuel, next, s', hsearch, hd⟩ :
          Searches cpu d (s.setCurrent (s.cpus cpu).processorId t) :=
          (if_neg hrun).mp ih
        rw [setCurrent_processorId] at hsearch
        exact ⟨fuel + 1, next, s',
          by rw [getNextThread_moves hcount hor hnext, if_neg hrun, hsearch], hd⟩
    | canRun t =>
      obtain ⟨rfl, rfl⟩ : _ = c₁ ∧ s = s₁ := by simpa [program, step, stepSchedule] using h
      by_cases hrun : (s.threads t).canRun
      · rw [if_pos hrun] at ih
        exact (if_pos hrun).mpr ih
      · rw [if_neg hrun] at ih
        exact (if_neg hrun).mpr ih
    | unlock => simp [program, step] at h
    | _ => trivial

def on (s : Scheduler) (cpu : Nat) : Scheduler := { s with curCpu := cpu }

theorem getNextThread_on {fuel id : Nat} : getNextThread fuel (s.on cpu) id =
    (getNextThread fuel s id).map fun r => (r.1, r.2.on cpu) := by
  induction fuel generalizing s with
  | zero => rfl
  | succ fuel ih =>
    have hmove : ∀ t, (s.on cpu).modifyQueue id (fun queue => { queue with current := some t }) =
        (s.modifyQueue id fun queue => { queue with current := some t }).on cpu := fun _ => rfl
    have hqueue : (s.on cpu).queue id = s.queue id := rfl
    have hthreads : ∀ s : Scheduler, (s.on cpu).threads = s.threads := fun _ => rfl
    simp only [getNextThread, hqueue, hmove, hthreads, modifyQueue_threads, ih]
    by_cases hcount : (s.queue id).numThreads = 0
    · rw [if_pos hcount, if_pos hcount]
      rfl
    · rw [if_neg hcount, if_neg hcount]
      cases (s.queue id).current.or (s.queue id).head with
      | none => rfl
      | some current =>
        simp only [Option.bind_eq_bind, Option.bind_some]
        cases (s.threads current).next.or (s.queue id).head with
        | none => rfl
        | some t =>
          simp only [Option.bind_some]
          by_cases hrun : (s.threads t).canRun
          · simp only [hrun, ↓reduceIte, Option.map_some]
          · simp only [hrun, ↓reduceIte, Bool.false_eq_true]

theorem completes_save (h : program.Completes (.schedule cpu regs) .lock s d) : s.schedMutex = false ∧
    ∃ s₁, (on { s with schedMutex := true } cpu).saveContext regs = s₁.on cpu ∧ Searches cpu d s₁ := by
  obtain ⟨hmutex, h⟩ := (completes_lock fun _ => rfl).mp h
  obtain ⟨s₁, hs₁⟩ : ∃ s₁, s₁ = { s with schedMutex := true } := ⟨_, rfl⟩
  rw [← hs₁] at h ⊢
  refine ⟨hmutex, ?_⟩
  have hqueue : (s₁.on cpu).getCurCPU.taskQueue.current = (s₁.queue cpu).current := rfl
  unfold saveContext
  rw [hqueue]
  cases hcurrent : (s₁.queue cpu).current with
  | none =>
    have hstep : program.next (.schedule cpu regs) .readCurrent s₁ = some (some .anyThreads, s₁) := by
      simp only [program, step, stepSchedule, hcurrent]
    rw [Program.completes_of_next hstep] at h
    exact ⟨s₁, rfl, completes_remains h⟩
  | some current =>
    have hstep : program.next (.schedule cpu regs) .readCurrent s₁ =
        some (some (.saveContext current), s₁) := by
      simp only [program, step, stepSchedule, hcurrent]
    have hsave : program.next (.schedule cpu regs) (.saveContext current) s₁ =
        some (some .anyThreads, s₁.modifyThread current fun th => { th with ctxt := regs }) := rfl
    rw [Program.completes_of_next hstep, Program.completes_of_next hsave] at h
    exact ⟨_, rfl, completes_remains h⟩

/-- `Schedule` alone, on any processor: with the dispatch that follows it is
`schedule`. -/
theorem completes_schedule (h : program.Completes (.schedule cpu regs) .lock s d) : ∃ fuel next,
    (s.on cpu).schedule fuel regs = some (next, match next with
      | none => d.on cpu
      | some t => (d.on cpu).dispatch t) := by
  obtain ⟨hmutex, s₁, hsave, fuel, next, s', hsearch, rfl⟩ := completes_save h
  have hlock : (s.on cpu).lock = some (on { s with schedMutex := true } cpu) := lock_eq hmutex
  have hproc : (s₁.on cpu).getCurCPU.processorId = (s₁.cpus cpu).processorId := rfl
  have hunlock : (s'.on cpu).unlock = s'.unlock.on cpu := rfl
  refine ⟨fuel, next, ?_⟩
  simp only [schedule, hlock, hsave, hproc, getNextThread_on, hsearch, hunlock, Option.map_some,
    Option.bind_eq_bind, Option.bind_some]
  cases next <;> rfl

end

end Scheduler

end LimineOS
