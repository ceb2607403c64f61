import LimineOS.Sched.Queue
import LimineOS.Lib.Transition

/-!
# Runs of the scheduler

The events are additions of fresh threads, timer ticks on the processor that
boots, and exits of the thread it executes. `dispatched`, `savedContext` and
`exited` read off a history, newest event first, which thread is executing,
which context each thread was left with and which threads are gone. `Sound`
ties the state to its history and every event keeps it.
-/

namespace LimineOS

open LinkedList Transition

namespace Scheduler

/-- A tick carries the frame it delivers and the thread that it dispatches. -/
inductive Event
  | addEntry (t : ThreadPtr) (entry : BitVec 64) (isUser : Bool) (rootTable : Nat)
  | addThread (t : ThreadPtr) (entry : BitVec 64) (isUser : Bool) (rootTable : Nat)
  | tick (regs : SavedRegs) (next : Option ThreadPtr)
  | deleteCurThread
  deriving DecidableEq, Repr

/-- One event. `AddThread(t)` gets a thread that its constructor has just built. -/
def Step (s : Scheduler) : Event → Scheduler → Prop
  | .addEntry t entry isUser rootTable, s' => s.addEntry t entry isUser rootTable = some s'
  | .addThread t entry isUser rootTable, s' =>
    (s.modifyThread t fun _ => .build entry isUser rootTable).addThread t = s'
  | .tick regs next, s' => ∃ fuel, s.schedule fuel regs = some (next, s')
  | .deleteCurThread, s' => s.deleteCurThread = some s'

def exec (fuel : Nat) (s : Scheduler) : Event → Option Scheduler
  | .addEntry t entry isUser rootTable => s.addEntry t entry isUser rootTable
  | .addThread t entry isUser rootTable =>
    some ((s.modifyThread t fun _ => .build entry isUser rootTable).addThread t)
  | .tick regs next => do
    let (r, s) ← s.schedule fuel regs
    if r = next then some s else none
  | .deleteCurThread => s.deleteCurThread

theorem exec_step {s s' : Scheduler} {e : Event} {fuel : Nat} (h : s.exec fuel e = some s') :
    Step s e s' := by
  cases e with
  | addEntry t entry isUser rootTable => exact h
  | addThread t entry isUser rootTable => exact Option.some.inj h
  | tick regs next =>
    simp only [exec, Option.bind_eq_bind, Option.bind_eq_some_iff] at h
    obtain ⟨⟨r, s₁⟩, hsched, h⟩ := h
    split at h
    · rename_i hr
      obtain rfl := hr
      obtain rfl : s₁ = s' := Option.some.inj h
      exact ⟨fuel, hsched⟩
    · simp at h
  | deleteCurThread => exact h

-- ---------------------------------------------------------------------------
-- Histories
-- ---------------------------------------------------------------------------

def Event.fresh : Event → Option ThreadPtr
  | .addEntry t .. | .addThread t .. => some t
  | .tick .. | .deleteCurThread => none

def added (es : List Event) : List ThreadPtr := es.filterMap Event.fresh

def dispatched : List Event → Option ThreadPtr
  | [] => none
  | .tick _ (some t) :: _ => some t
  | _ :: past => dispatched past

/-- The frame delivered by the tick that last preempted `t`, or the context of
its constructor if `t` has not been preempted. -/
def savedContext (t : ThreadPtr) : List Event → Option SavedRegs
  | [] => none
  | .tick regs _ :: past => if dispatched past = some t then some regs else savedContext t past
  | .addEntry t' entry isUser _ :: past | .addThread t' entry isUser _ :: past =>
    if t' = t then some (Thread.startContext entry isUser) else savedContext t past
  | .deleteCurThread :: past => savedContext t past

def exited (t : ThreadPtr) : List Event → Bool
  | [] => false
  | .deleteCurThread :: past => dispatched past = some t || exited t past
  | _ :: past => exited t past

structure Sound (s : Scheduler) (es : List Event) : Prop where
  mutex : s.schedMutex = false
  core : s.curCpuCore = 0
  boot : s.getCurCPU.processorId = s.curCpu
  queue : QueueOk s 0 (added es)
  idle : s.curCpu ≠ 0 → s.queue s.curCpu = {}
  curPid : s.curPid = count32 (added es).length
  pids : (added es).map (fun t => (s.threads t).pid) = (List.range (added es).length).map count32
  running : (s.queue s.curCpu).current = dispatched es.reverse
  contexts : ∀ t ∈ added es, savedContext t es.reverse = some (s.threads t).ctxt
  runnable : ∀ t ∈ added es, (s.threads t).canRun = !exited t es.reverse
  gone : ∀ t, exited t es.reverse = true → t ∈ added es

section
variable {s s' : Scheduler} {es : List Event} {e : Event} {t c : ThreadPtr} {regs : SavedRegs}
  {L : List ThreadPtr}

theorem added_snoc : added (es ++ [e]) = added es ++ e.fresh.toList := by
  rw [added, List.filterMap_append]
  cases h : e.fresh <;> simp [added, h]

theorem added_of_not_fresh (h : e.fresh = none) : added (es ++ [e]) = added es := by
  rw [added_snoc, h]
  exact List.append_nil _

-- ---------------------------------------------------------------------------
-- Additions
-- ---------------------------------------------------------------------------

structure Additions (s : Scheduler) (ts : List ThreadPtr) : Prop where
  mutex : s.schedMutex = false
  core : s.curCpuCore = 0
  queue : QueueOk s 0 ts
  curPid : s.curPid = count32 ts.length
  pids : ts.map (fun t => (s.threads t).pid) = (List.range ts.length).map count32

theorem Sound.additions (h : Sound s es) : Additions s (added es) :=
  ⟨h.mutex, h.core, h.queue, h.curPid, h.pids⟩

theorem addition_eq (s : Scheduler) (t : ThreadPtr) (entry : BitVec 64) (isUser : Bool)
    (rootTable : Nat) :
    ∃ threads, ((s.modifyThread t fun _ => .build entry isUser rootTable).enqueue t).unlock =
      { s with threads, curPid := incr32 s.curPid, schedMutex := false }.modifyQueue s.curCpuCore
        (fun queue =>
        { queue with
          head := queue.head.or (some t)
          tail := some t
          numThreads := incr32 queue.numThreads }) ∧
      (threads t).ctxt = Thread.startContext entry isUser ∧ (threads t).canRun = true ∧
      (threads t).pid = s.curPid ∧
      ∀ c, c ≠ t → (threads c).ctxt = (s.threads c).ctxt ∧ (threads c).canRun = (s.threads c).canRun ∧
        (threads c).pid = (s.threads c).pid := by
  obtain ⟨threads, heq, hthreads⟩ :=
    enqueue_eq (s.modifyThread t fun _ => .build entry isUser rootTable) t
  have hnew : (s.modifyThread t fun _ => Thread.build entry isUser rootTable).threads t =
      .build entry isUser rootTable :=
    modifyThread_self
  refine ⟨threads, by rw [heq]; rfl, ?_, ?_, ?_, fun c hc => ?_⟩
  · rw [hthreads, hnew]
    rfl
  · rw [hthreads, hnew]
    rfl
  · rw [hthreads, if_pos rfl]
    rfl
  · rw [hthreads, if_neg hc, modifyThread_of_ne hc]
    exact ⟨rfl, rfl, rfl⟩

theorem Additions.add {ts : List ThreadPtr} {entry : BitVec 64} {isUser : Bool} {rootTable : Nat}
    (h : Additions s ts)
    (ht : t ∉ ts) :
    Additions ((s.modifyThread t fun _ => .build entry isUser rootTable).enqueue t).unlock
      (ts ++ [t]) := by
  obtain ⟨threads, heq, -, -, hpid, hold⟩ := addition_eq s t entry isUser rootTable
  refine ⟨rfl, by rw [heq]; exact h.core, ?_, ?_, ?_⟩
  · obtain ⟨s₁, hs₁⟩ : ∃ s₁, s₁ = s.modifyThread t fun _ => .build entry isUser rootTable := ⟨_, rfl⟩
    have hcore : s₁.curCpuCore = 0 := by rw [hs₁]; exact h.core
    have hqueue : QueueOk s₁ s₁.curCpuCore ts := by
      rw [hcore, hs₁]
      exact h.queue.congr rfl fun c hc => by rw [modifyThread_of_ne (ne_of_mem_of_not_mem hc ht)]
    have hqueue' := enqueue_ok hqueue ht (by rw [hs₁, modifyThread_self]; rfl)
    rw [← hs₁]
    exact (hcore ▸ hqueue').congr rfl fun _ _ => rfl
  · rw [heq, List.length_append, List.length_singleton, ← incr32_count32, ← h.curPid]
    rfl
  · rw [heq, modifyQueue_threads, List.map_append, List.length_append, List.length_singleton,
      List.range_succ, List.map_append, ← h.pids]
    refine congrArg₂ (· ++ ·) (List.map_congr_left fun c hc => ?_) ?_
    · exact (hold c (ne_of_mem_of_not_mem hc ht)).2.2
    · rw [List.map_singleton, List.map_singleton, hpid, h.curPid]

theorem Sound.add {entry : BitVec 64} {isUser : Bool} {rootTable : Nat} (h : Sound s es)
    (he : e = .addEntry t entry isUser rootTable ∨ e = .addThread t entry isUser rootTable)
    (hs : s' = ((s.modifyThread t fun _ => .build entry isUser rootTable).enqueue t).unlock)
    (hfresh : t ∉ added es) : Sound s' (es ++ [e]) := by
  have hfresh' : e.fresh = some t := by rcases he with rfl | rfl <;> rfl
  have hdispatched : dispatched (e :: es.reverse) = dispatched es.reverse := by
    rcases he with rfl | rfl <;> rfl
  have hsaved : ∀ c, savedContext c (e :: es.reverse) =
      if t = c then some (Thread.startContext entry isUser) else savedContext c es.reverse := by
    intro c
    rcases he with rfl | rfl <;> rfl
  have hexited : ∀ c, exited c (e :: es.reverse) = exited c es.reverse := by
    intro c
    rcases he with rfl | rfl <;> rfl
  have hrev : (es ++ [e]).reverse = e :: es.reverse := List.reverse_concat
  have hadded : added (es ++ [e]) = added es ++ [t] := by rw [added_snoc, hfresh', Option.toList_some]
  have hadditions : Additions s' (added (es ++ [e])) := by
    rw [hadded, hs]
    exact h.additions.add hfresh
  have hmem : ∀ c, c ∈ added (es ++ [e]) → c = t ∨ c ≠ t ∧ c ∈ added es := by
    intro c hc
    rw [hadded] at hc
    rcases List.mem_append.mp hc with hin | hc
    · exact .inr ⟨ne_of_mem_of_not_mem hin hfresh, hin⟩
    · exact .inl (List.mem_singleton.mp hc)
  obtain ⟨threads, heq, hctxt, hrun, -, hold⟩ := addition_eq s t entry isUser rootTable
  rw [← hs, h.core] at heq
  have hthreads : s'.threads = threads := by rw [heq]; rfl
  have hcpu : s'.curCpu = s.curCpu := by rw [heq]; rfl
  have hother : ∀ id, id ≠ 0 → s'.queue id = s.queue id :=
    fun id hid => by rw [heq]; exact queue_modifyQueue_of_ne hid
  have hcurrent : ∀ id, (s'.queue id).current = (s.queue id).current := by
    intro id
    rcases eq_or_ne id 0 with rfl | hid
    · rw [heq, queue_modifyQueue]
    · rw [hother id hid]
  refine ⟨hadditions.mutex, hadditions.core, ?_, hadditions.queue, ?_, hadditions.curPid,
    hadditions.pids, ?_, ?_, ?_, ?_⟩
  · have hproc : (s'.cpus s'.curCpu).processorId = (s.cpus s.curCpu).processorId := by
      rw [hcpu, heq]
      exact modifyQueue_processorId _
    rw [getCurCPU, hproc, hcpu]
    exact h.boot
  · intro hne
    rw [hcpu] at hne ⊢
    rw [hother _ hne, h.idle hne]
  · rw [hrev, hdispatched, hcurrent, hcpu, h.running]
  · intro c hc
    rw [hrev, hsaved, hthreads]
    rcases hmem c hc with rfl | ⟨hct, hc⟩
    · rw [if_pos rfl, hctxt]
    · rw [if_neg hct.symm, h.contexts c hc, (hold c hct).1]
  · intro c hc
    rw [hrev, hexited, hthreads]
    rcases hmem c hc with rfl | ⟨hct, hc⟩
    · have hlive : exited c es.reverse = false := by
        rw [← Bool.not_eq_true]
        exact fun hgone => hfresh (h.gone c hgone)
      rw [hrun, hlive]
      rfl
    · rw [(hold c hct).2.1, h.runnable c hc]
  · intro c hc
    rw [hrev, hexited] at hc
    rw [hadded]
    exact List.mem_append_left _ (h.gone c hc)

-- ---------------------------------------------------------------------------
-- Ticks
-- ---------------------------------------------------------------------------

theorem saveContext_threads (s : Scheduler) (regs : SavedRegs) (c : ThreadPtr) :
    (s.saveContext regs).threads c =
      { s.threads c with
        ctxt := if (s.queue s.curCpu).current = some c then regs else (s.threads c).ctxt } := by
  unfold saveContext getCurCPU
  cases hcur : (s.cpus s.curCpu).taskQueue.current with
  | none => simp
  | some current =>
    rcases eq_or_ne c current with rfl | hc
    · simp
    · simp [modifyThread_of_ne hc, hc.symm]

theorem saveContext_eq (s : Scheduler) (regs : SavedRegs) :
    s.saveContext regs = { s with threads := (s.saveContext regs).threads } := by
  unfold saveContext
  split <;> rfl

/-- What a tick does: it saves the frame for the thread that executed, and
then dispatches a thread of the queue that can run, if the queue counts any. -/
theorem schedule_cases {fuel : Nat} {r : Option ThreadPtr} (hmutex : s.schedMutex = false)
    (hboot : s.getCurCPU.processorId = s.curCpu) (hq : QueueOk s s.curCpu L)
    (h : s.schedule fuel regs = some (r, s')) :
    (r = none ∧ s' = s.saveContext regs) ∨
      ∃ t ∈ L, r = some t ∧ (s.threads t).canRun = true ∧
        s' = ((s.saveContext regs).setCurrent s.curCpu t).dispatch t := by
  obtain ⟨s₁, hs₁⟩ : ∃ s₁, s₁ = s.saveContext regs := ⟨_, rfl⟩
  have hkeep : s₁ = { s with threads := s₁.threads } := hs₁ ▸ saveContext_eq s regs
  have hthreads : ∀ c, s₁.threads c = _ := fun c => hs₁ ▸ saveContext_threads s regs c
  have hlock : s.lock = some { s with schedMutex := true } := by rw [lock, hmutex]; rfl
  have hsaved : ({ s with schedMutex := true } : Scheduler).saveContext regs =
      { s₁ with schedMutex := true } := by
    rw [hs₁]
    unfold saveContext getCurCPU
    simp only
    split <;> rfl
  have hunlock : ∀ s₂ : Scheduler, s₂.schedMutex = false →
      { s₂ with schedMutex := true }.unlock = s₂ := by
    rintro ⟨⟩ rfl
    rfl
  have hmutex₁ : s₁.schedMutex = false := by rw [hkeep]; exact hmutex
  have hproc : (getCurCPU { s₁ with schedMutex := true }).processorId = s.curCpu := by
    rw [hkeep]; exact hboot
  have hq₁ : QueueOk { s₁ with schedMutex := true } s.curCpu L := by
    refine hq.congr (by rw [hkeep]) fun c _ => ?_
    simp only [hthreads c]
  unfold schedule at h
  simp only [hlock, hsaved, hproc, Option.bind_eq_bind, Option.bind_some, Option.bind_eq_some_iff] at h
  obtain ⟨⟨next, s₃⟩, hnext, hrest⟩ := h
  rw [← hs₁]
  rcases getNextThread_cases hq₁ hnext with ⟨rfl, -, rfl⟩ | ⟨t, ht, rfl, hrun, rfl⟩
  · simp only [Option.some.injEq, Prod.mk.injEq] at hrest
    obtain ⟨rfl, rfl⟩ := hrest
    exact .inl ⟨rfl, hunlock s₁ hmutex₁⟩
  · simp only [Option.some.injEq, Prod.mk.injEq] at hrest
    obtain ⟨rfl, rfl⟩ := hrest
    refine .inr ⟨t, ht, rfl, by simpa [hthreads t] using hrun, ?_⟩
    have hset : (setCurrent { s₁ with schedMutex := true } s.curCpu t).unlock =
        s₁.setCurrent s.curCpu t :=
      hunlock (s₁.setCurrent s.curCpu t) hmutex₁
    rw [hset]

theorem Sound.curQueue (h : Sound s es) :
    ∃ L, QueueOk s s.curCpu L ∧ ((s.curCpu = 0 ∧ L = added es) ∨ (s.curCpu ≠ 0 ∧ L = [])) := by
  rcases eq_or_ne s.curCpu 0 with hcpu | hcpu
  · exact ⟨added es, hcpu ▸ h.queue, .inl ⟨hcpu, rfl⟩⟩
  · have hidle := h.idle hcpu
    refine ⟨[], ⟨?_, List.nodup_nil, ?_, ?_, ?_⟩, .inr ⟨hcpu, rfl⟩⟩ <;> rw [hidle]
    · rfl
    · rfl
    · rfl
    · simp

theorem Sound.current_mem (h : Sound s es) (hc : (s.queue s.curCpu).current = some c) :
    s.curCpu = 0 ∧ c ∈ added es := by
  obtain ⟨L, hq, ⟨hcpu, rfl⟩ | ⟨-, rfl⟩⟩ := h.curQueue
  · exact ⟨hcpu, hq.current c hc⟩
  · exact absurd (hq.current c hc) (by simp)

structure Saved (s : Scheduler) (regs : SavedRegs) (s' : Scheduler) : Prop where
  threads : ∀ c, s'.threads c =
    { s.threads c with
      ctxt := if (s.queue s.curCpu).current = some c then regs else (s.threads c).ctxt }
  mutex : s'.schedMutex = s.schedMutex
  curPid : s'.curPid = s.curPid
  core : s'.curCpuCore = s.curCpuCore
  cpu : s'.curCpu = s.curCpu
  processorId : ∀ id, (s'.cpus id).processorId = (s.cpus id).processorId

theorem saveContext_saved (s : Scheduler) (regs : SavedRegs) : Saved s regs (s.saveContext regs) := by
  constructor
  · exact saveContext_threads s regs
  all_goals rw [saveContext_eq]
  exact fun _ => rfl

theorem Saved.dispatched (h : Saved s regs s') (t : ThreadPtr) :
    Saved s regs ((s'.setCurrent s.curCpu t).dispatch t) where
  threads := h.threads
  mutex := h.mutex
  curPid := h.curPid
  core := h.core
  cpu := h.cpu
  processorId id := (setCurrent_processorId id).trans (h.processorId id)

theorem Sound.of_saved {next : Option ThreadPtr} (h : Sound s es) (hs : Saved s regs s')
    (hqueue : QueueOk s' 0 (added es))
    (hidle : s.curCpu ≠ 0 → s'.queue s.curCpu = {})
    (hrunning : (s'.queue s.curCpu).current = dispatched (.tick regs next :: es.reverse)) :
    Sound s' (es ++ [.tick regs next]) := by
  have hadded : added (es ++ [.tick regs next]) = added es := added_of_not_fresh rfl
  have hrev : (es ++ [Event.tick regs next]).reverse = .tick regs next :: es.reverse :=
    List.reverse_concat
  have hexited : ∀ c, exited c (Event.tick regs next :: es.reverse) = exited c es.reverse :=
    fun _ => rfl
  refine ⟨hs.mutex ▸ h.mutex, hs.core ▸ h.core, ?_, hadded ▸ hqueue, hs.cpu ▸ hidle, ?_, ?_, ?_, ?_,
    ?_, ?_⟩
  · rw [getCurCPU, hs.processorId, hs.cpu]
    exact h.boot
  · rw [hs.curPid, hadded, h.curPid]
  · rw [hadded, ← h.pids]
    refine List.map_congr_left fun c _ => ?_
    rw [hs.threads c]
  · rw [hrev, hs.cpu, hrunning]
  · intro c hc
    rw [hadded] at hc
    rw [hrev, savedContext, ← h.running, h.contexts c hc, hs.threads c]
    split <;> rfl
  · intro c hc
    rw [hadded] at hc
    rw [hrev, hexited, hs.threads c]
    exact h.runnable c hc
  · intro c hc
    rw [hadded]
    rw [hrev, hexited] at hc
    exact h.gone c hc

theorem Sound.tick {next : Option ThreadPtr} (h : Sound s es) (hstep : Step s (.tick regs next) s') :
    Sound s' (es ++ [.tick regs next]) := by
  obtain ⟨fuel, hsched⟩ := hstep
  obtain ⟨L, hq, hL⟩ := h.curQueue
  have hsaved := saveContext_saved s regs
  have hcpus : (s.saveContext regs).cpus = s.cpus := by rw [saveContext_eq]
  have hlinks : QueueOk (s.saveContext regs) 0 (added es) :=
    h.queue.congr (congrArg (fun cpus => (cpus 0).taskQueue) hcpus) fun c _ => by rw [hsaved.threads c]
  rcases schedule_cases h.mutex h.boot hq hsched with ⟨rfl, rfl⟩ | ⟨t, ht, rfl, hrun, rfl⟩
  · refine h.of_saved hsaved hlinks ?_ ?_ <;> rw [Scheduler.queue, hcpus]
    · exact h.idle
    · exact h.running
  · rcases hL with ⟨hcpu, rfl⟩ | ⟨-, rfl⟩
    · refine h.of_saved (hsaved.dispatched t) ?_ (absurd hcpu) setCurrent_current
      rw [hcpu]
      exact (hlinks.setCurrent ht).congr rfl fun _ _ => rfl
    · exact absurd ht List.not_mem_nil

-- ---------------------------------------------------------------------------
-- Exits
-- ---------------------------------------------------------------------------

theorem Sound.deleteCurThread (h : Sound s es) (hstep : Step s .deleteCurThread s') :
    Sound s' (es ++ [.deleteCurThread]) := by
  have hadded : added (es ++ [.deleteCurThread]) = added es := added_of_not_fresh rfl
  have hrev : (es ++ [Event.deleteCurThread]).reverse = .deleteCurThread :: es.reverse := by simp
  simp only [Step, Scheduler.deleteCurThread, h.boot, Option.bind_eq_bind, Option.bind_eq_some_iff,
    Option.some.injEq] at hstep
  obtain ⟨current, hcur, rfl⟩ := hstep
  have hdispatched : dispatched es.reverse = some current := h.running ▸ hcur
  have hthreads : ∀ c, (s.modifyThread current fun th => { th with canRun := false }).threads c =
      { s.threads c with canRun := if c = current then false else (s.threads c).canRun } := by
    intro c
    rcases eq_or_ne c current with rfl | hc
    · simp
    · simp [modifyThread_of_ne hc, hc]
  refine ⟨h.mutex, h.core, h.boot, ?_, h.idle, ?_, ?_, ?_, ?_, ?_, ?_⟩
  · rw [hadded]
    exact h.queue.congr rfl fun c _ => by rw [hthreads c]
  · rw [hadded]
    exact h.curPid
  · rw [hadded, ← h.pids]
    refine List.map_congr_left fun c _ => ?_
    rw [hthreads c]
  · rw [hrev]
    exact h.running
  · intro c hc
    rw [hadded] at hc
    rw [hrev, savedContext, h.contexts c hc, hthreads c]
  · intro c hc
    rw [hadded] at hc
    rw [hrev, exited, hdispatched, hthreads c, h.runnable c hc]
    rcases eq_or_ne c current with rfl | hne
    · simp
    · simp [hne, hne.symm]
  · intro c hc
    rw [hadded]
    rw [hrev, exited, hdispatched, Bool.or_eq_true, decide_eq_true_eq, Option.some.injEq] at hc
    rcases hc with rfl | hc
    · exact (h.current_mem hcur).2
    · exact h.gone c hc

-- ---------------------------------------------------------------------------
-- Runs
-- ---------------------------------------------------------------------------

/-- The scheduler once `Initialize` is through: no thread anywhere, and the
processor that boots knows its own number. -/
structure Booted (s : Scheduler) : Prop where
  mutex : s.schedMutex = false
  core : s.curCpuCore = 0
  curPid : s.curPid = 0
  boot : s.getCurCPU.processorId = s.curCpu
  queue : s.queue 0 = {}
  idle : s.queue s.curCpu = {}

theorem count32_zero : count32 0 = 0 := count32_of_lt 0 (by decide)

theorem Booted.sound (h : Booted s) : Sound s [] where
  mutex := h.mutex
  core := h.core
  boot := h.boot
  queue := by
    refine ⟨?_, List.nodup_nil, ?_, ?_, ?_⟩ <;> rw [h.queue]
    · rfl
    · rfl
    · exact count32_zero.symm
    · simp
  idle := fun _ => h.idle
  curPid := h.curPid.trans count32_zero.symm
  pids := by simp [added]
  running := by rw [h.idle]; rfl
  contexts := by simp [added]
  runnable := by simp [added]
  gone := by simp [exited]

theorem initializeCpus_booted {s₀ : Scheduler} {pmm pmm' : PhysicalMemory} {ids : List Nat}
    (hqueues : ∀ id, s.queue id = {}) (hcore : s.curCpuCore = 0) (hpid : s.curPid = 0)
    (hboot : s.getCurCPU.processorId = s.curCpu) (h : s.initializeCpus pmm ids = some (s₀, pmm')) :
    Booted s₀ := by
  suffices hall : ∀ (ids : List Nat) (s : Scheduler) (pmm : PhysicalMemory), (∀ id, s.queue id = {}) →
      s.schedMutex = false → s.curCpuCore = 0 → s.curPid = 0 → s.getCurCPU.processorId = s.curCpu →
      ids.foldlM initializeCpu (s, pmm) = some (s₀, pmm') → Booted s₀ from
    hall ids s.unlock pmm hqueues rfl hcore hpid hboot h
  intro ids
  induction ids with
  | nil =>
    rintro s pmm hqueues hmutex hcore hpid hboot h
    obtain ⟨rfl, -⟩ := Prod.mk.inj (Option.some.inj h)
    exact ⟨hmutex, hcore, hpid, hboot, hqueues 0, hqueues _⟩
  | cons id ids ih =>
    rintro s pmm hqueues hmutex hcore hpid hboot h
    simp only [List.foldlM_cons, initializeCpu, Option.bind_eq_bind, Option.bind_eq_some_iff] at h
    obtain ⟨⟨s₁, pmm₁⟩, ⟨⟨kstack, pmm₂⟩, -, heq⟩, h⟩ := h
    obtain ⟨rfl, rfl⟩ := Prod.mk.inj (Option.some.inj heq)
    refine ih _ _ (fun j => ?_) ?_ ?_ ?_ ?_ h
    · have hid := hqueues id
      have hj := hqueues j
      simp only [queue] at hid hj ⊢
      rcases eq_or_ne j id with rfl | hne
      · rw [Function.update_self, hid]
      · rw [Function.update_of_ne hne, hj]
    · exact hmutex
    · exact hcore
    · exact hpid
    · simp only [getCurCPU] at hboot ⊢
      rcases eq_or_ne s.curCpu id with hid | hne
      · rw [← hid, Function.update_self, hboot]
      · rw [Function.update_of_ne hne, hboot]

theorem Sound.step (h : Sound s es) (hstep : Step s e s') (hfresh : (added (es ++ [e])).Nodup) :
    Sound s' (es ++ [e]) := by
  have hnew : ∀ t, e.fresh = some t → t ∉ added es := by
    intro t ht
    rw [added_snoc, ht] at hfresh
    exact fun hmem => List.disjoint_of_nodup_append hfresh hmem (List.mem_singleton_self t)
  cases e with
  | addEntry t entry isUser rootTable =>
    have hlock : s.lock = some { s with schedMutex := true } := by rw [lock, h.mutex]; rfl
    simp only [Step, Scheduler.addEntry, hlock, Option.map_some, Option.some.injEq] at hstep
    refine h.add (.inl rfl) ?_ (hnew t rfl)
    rw [← hstep]
    exact enqueue_locked (s.modifyThread t fun _ => .build entry isUser rootTable) t
  | addThread t entry isUser rootTable =>
    exact h.add (.inr rfl) hstep.symm (hnew t rfl)
  | tick regs next => exact h.tick hstep
  | deleteCurThread => exact h.deleteCurThread hstep

theorem run_sound {s₀ : Scheduler} (hb : Booted s₀) (hrun : Run Step s₀ es s)
    (hfresh : (added es).Nodup) :
    Sound s es := by
  refine hrun.history (I := fun es s => (added es).Nodup → Sound s es) (fun _ => hb.sound) ?_ hfresh
  intro es s e s' ih hstep hfresh
  have hbefore : (added es).Nodup := by
    rw [added_snoc] at hfresh
    exact hfresh.of_append_left
  exact (ih hbefore).step hstep hfresh

end

end Scheduler

end LimineOS
