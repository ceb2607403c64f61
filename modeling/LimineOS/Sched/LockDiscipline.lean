import LimineOS.Sched.Contexts
import LimineOS.Sched.Dispatch

/-!
# Every interleaving of additions and schedules

`curPid` and the queues are only touched under the lock, and the lock is only
released by its holder, in exactly those runs in which no context takes a step
of `AddThread(t)` (`run_disciplined_iff`). These runs add the threads of all
additions one after the other.
-/

namespace LimineOS

open Transition Mutex

namespace Scheduler

def NoAddThread {ι : Type} (s : State ι Scheduler Op Stage) : Mutex.Event ι Op → Prop
  | .start _ _ => True
  | .step i => ∀ t c, s.running i ≠ some (.addThread t, c)

def Op.fresh : Op → Option ThreadPtr
  | .addEntry t _ _ _ | .addThread t => some t
  | .schedule _ _ => none

def addedThreads (ops : List Op) : List ThreadPtr := ops.filterMap Op.fresh

/-- The queue is made of the threads `ts`, and two of them have one pid only
where the counter has gone round in between. -/
structure Kept (s : Scheduler) (ts : List ThreadPtr) : Prop where
  queue : QueueOk s 0 ts
  pids : ∀ m n (hm : m < ts.length) (hn : n < ts.length),
    (s.threads ts[m]).pid = (s.threads ts[n]).pid →
    m % 2 ^ 32 = n % 2 ^ 32

/-- One context at a time is between lock and unlock. The operations that have
finished lose no thread and issue no pid twice, and all that has happened since
is the part of the holder. -/
structure Exclusive {ι : Type} (s₀ : Scheduler) (s : State ι Scheduler Op Stage) : Prop where
  one : ∀ i j, program.Inside s i → program.Inside s j → i = j
  kept : (addedThreads s.finished).Nodup → ∃ base, Kept base (addedThreads s.finished) ∧
    (s.holder = none → s.data = base) ∧
    ∀ i op c, s.holder = some i → s.running i = some (op, c) →
    program.Reaches op (program.start op) base c s.data

section
variable {ι : Type} {s₀ s s' d base : Scheduler} {ops : List Op} {op : Op} {t : ThreadPtr}
  {ts : List ThreadPtr} {id fuel : Nat}

theorem start_acquire_iff : program.kind (program.start op) = .acquire ↔ ∀ t, op ≠ .addThread t := by
  cases op with
  | addThread t => exact iff_of_false (fun h => nomatch h) (by simp)
  | addEntry | schedule => exact iff_of_true rfl (by simp)

theorem locksFirst_iff {s : State ι Scheduler Op Stage} {e : Mutex.Event ι Op} :
    program.LocksFirst s e ↔ NoAddThread s e := by
  cases e with
  | start i op => exact Iff.rfl
  | step i =>
    constructor
    · rintro hfirst t c hrunning
      exact start_acquire_iff.mp (hfirst _ c hrunning) t rfl
    · rintro hno op c hrunning
      refine start_acquire_iff.mpr ?_
      rintro t rfl
      exact hno t c hrunning

-- ---------------------------------------------------------------------------
-- One operation after the other
-- ---------------------------------------------------------------------------

theorem addedThreads_snoc : addedThreads (ops ++ [op]) = addedThreads ops ++ op.fresh.toList := by
  rw [addedThreads, List.filterMap_append]
  cases h : op.fresh <;> simp [addedThreads, h]

theorem getNextThread_moved {r : Option ThreadPtr} (h : getNextThread fuel s id = some (r, s')) :
    s' = s ∨ ∃ t, s' = s.setCurrent id t := by
  induction fuel generalizing s with
  | zero => simp [getNextThread] at h
  | succ fuel ih =>
    rw [getNextThread] at h
    split_ifs at h with hcount
    · exact .inl (Prod.mk.inj (Option.some.inj h)).2.symm
    · simp only [Option.bind_eq_bind, Option.bind_eq_some_iff] at h
      obtain ⟨current, -, t, -, h⟩ := h
      split_ifs at h with hrun
      · exact .inr ⟨t, (Prod.mk.inj (Option.some.inj h)).2.symm⟩
      · rcases ih h with rfl | ⟨t', rfl⟩
        · exact .inr ⟨t, rfl⟩
        · exact .inr ⟨t', setCurrent_setCurrent⟩

theorem getNextThread_queueOk {r : Option ThreadPtr} (hq : QueueOk s 0 ts)
    (h : getNextThread fuel s id = some (r, s')) :
    QueueOk s' 0 ts ∧ ∃ cpus, s' = { s with cpus } := by
  rcases eq_or_ne id 0 with rfl | hid
  · rcases getNextThread_cases hq h with ⟨-, -, rfl⟩ | ⟨t, ht, -, -, rfl⟩
    · exact ⟨hq, s'.cpus, rfl⟩
    · exact ⟨hq.setCurrent ht, _, rfl⟩
  · rcases getNextThread_moved h with rfl | ⟨t, rfl⟩
    · exact ⟨hq, s'.cpus, rfl⟩
    · exact ⟨hq.congr (queue_modifyQueue_of_ne hid.symm) fun _ _ => rfl, _, rfl⟩

theorem Additions.schedule {cpu : Nat} {regs : SavedRegs} (h : Additions s ts)
    (hc : program.Completes (.schedule cpu regs) .lock s d) : Additions d ts := by
  obtain ⟨-, s₁, hsave, fuel, next, s₂, hsearch, rfl⟩ := completes_save hc
  have hs₁ := hsave.symm.trans (saveContext_eq (on { s with schedMutex := true } cpu) regs)
  have hpid : s₁.curPid = s.curPid := (congrArg Scheduler.curPid hs₁ :)
  have hcore : s₁.curCpuCore = s.curCpuCore := (congrArg curCpuCore hs₁ :)
  have hcpus : s₁.cpus = s.cpus := (congrArg Scheduler.cpus hs₁ :)
  have hthreads : ∀ c, (s₁.threads c).next = (s.threads c).next ∧
      (s₁.threads c).pid = (s.threads c).pid := by
    intro c
    have hsaved := saveContext_threads (on { s with schedMutex := true } cpu) regs c
    rw [hsave] at hsaved
    exact ⟨(congrArg Thread.next hsaved :), (congrArg Thread.pid hsaved :)⟩
  have hqueue : QueueOk s₁ 0 ts :=
    h.queue.congr (by rw [Scheduler.queue, Scheduler.queue, hcpus]) fun c _ => (hthreads c).1
  obtain ⟨hqueue₂, cpus, rfl⟩ := getNextThread_queueOk hqueue hsearch
  refine ⟨rfl, hcore.trans h.core, hqueue₂.congr rfl fun _ _ => rfl, hpid.trans h.curPid, ?_⟩
  rw [← h.pids]
  exact List.map_congr_left fun c _ => (hthreads c).2

theorem Additions.step (h : Additions s ts) (hno : ∀ t, op ≠ .addThread t)
    (hstep : program.Atomic s op d)
    (hfresh : ∀ t, op.fresh = some t → t ∉ ts) : Additions d (ts ++ op.fresh.toList) := by
  cases op with
  | addEntry t entry isUser rootTable =>
    obtain ⟨s₁, hlock, rfl⟩ := Option.map_eq_some_iff.mp (completes_addEntry.mp hstep)
    obtain ⟨-, rfl⟩ := lock_cases hlock
    have hadd := @Additions.add s t ts entry isUser rootTable h (hfresh t rfl)
    rw [← enqueue_locked] at hadd
    exact hadd
  | addThread t => exact absurd rfl (hno t)
  | schedule cpu regs =>
    rw [Op.fresh, Option.toList_none, List.append_nil]
    exact h.schedule hstep

theorem run_additions (hb : Booted s₀) (hrun : Run program.Atomic s₀ ops s)
    (hno : ∀ op ∈ ops, ∀ t, op ≠ .addThread t)
    (hnodup : (addedThreads ops).Nodup) : Additions s (addedThreads ops) := by
  refine hrun.history (I :=
    fun ops s => (∀ op ∈ ops, ∀ t, op ≠ .addThread t) → (addedThreads ops).Nodup →
    Additions s (addedThreads ops)) (fun _ _ => hb.sound.additions) ?_ hno hnodup
  intro ops s op s' ih hstep hno hnodup
  rw [addedThreads_snoc] at hnodup ⊢
  refine (ih (fun op' hop => hno op' (List.mem_append_left _ hop)) hnodup.of_append_left).step
    (hno op (List.mem_append_right _ (List.mem_singleton_self op))) hstep fun t ht hmem => ?_
  rw [ht] at hnodup
  exact List.disjoint_of_nodup_append hnodup hmem (List.mem_singleton_self t)

theorem bmod_inj {m n k : Nat} (h : (m : Int).bmod k = (n : Int).bmod k) : m % k = n % k := by
  have hmod : (m : Int).bmod k % k = (n : Int).bmod k % k := by rw [h]
  rw [Int.bmod_emod, Int.bmod_emod] at hmod
  exact_mod_cast hmod

theorem Additions.kept (h : Additions s ts) : Kept s ts := by
  have hpid : ∀ m (hm : m < ts.length), (s.threads ts[m]).pid = count32 m := by
    intro m hm
    have hget := congrArg (·[m]?) h.pids
    simpa [hm] using hget
  refine ⟨h.queue, fun m n hm hn heq => ?_⟩
  rw [hpid m hm, hpid n hn] at heq
  exact bmod_inj heq

-- ---------------------------------------------------------------------------
-- Interleavings
-- ---------------------------------------------------------------------------

variable [DecidableEq ι] {s : State ι Scheduler Op Stage} {es : List (Mutex.Event ι Op)}

theorem exclusive_of_run (hb : Booted s₀)
    (hrun : Run (Guarded program.LocksFirst (Steps program.exec)) { data := s₀ } es s) :
    Exclusive s₀ s := by
  have hsound := Mutex.run_sound program_lawful hb.mutex hrun
  refine ⟨fun i j => hsound.exclusive, fun hnodup => ?_⟩
  obtain ⟨base, hserial, hfree, hheld⟩ := hsound.serial
  have hno : ∀ op ∈ s.finished, ∀ t, op ≠ .addThread t :=
    fun op hop => start_acquire_iff.mp (run_finished hrun op hop)
  exact ⟨base, (run_additions hb hserial hno hnodup).kept, hfree, hheld⟩

/-- Any number of contexts keep the discipline of the lock in exactly the runs
in which none takes a step of `AddThread(t)`, and these keep each addition. -/
theorem run_disciplined_iff (hb : Booted s₀) :
    (Run (Guarded program.Disciplined (Steps program.exec)) { data := s₀ } es s ↔
      Run (Guarded NoAddThread (Steps program.exec)) { data := s₀ } es s) ∧
    (Run (Guarded NoAddThread (Steps program.exec)) { data := s₀ } es s → Exclusive s₀ s) := by
  have hguard : program.LocksFirst = @NoAddThread ι := funext₂ fun _ _ => propext locksFirst_iff
  rw [← hguard]
  exact ⟨guarded_iff program_lawful hb.mutex, exclusive_of_run hb⟩

theorem run_noAddThread (hrun : Run (Steps program.exec) { data := s₀ } es s)
    (hno : ∀ i t, .start i (.addThread t) ∉ es) :
    (∀ i t c, s.running i ≠ some (.addThread t, c)) ∧
      Run (Guarded NoAddThread (Steps program.exec)) { data := s₀ } es s := by
  refine hrun.history (I :=
    fun es s => (∀ i t, .start i (.addThread t) ∉ es) →
    (∀ i t c, s.running i ≠ some (.addThread t, c)) ∧
    Run (Guarded NoAddThread (Steps program.exec)) { data := s₀ } es s) (fun _ =>
      ⟨fun i t c => by simp, .nil⟩) ?_ hno
  intro es s e s' ih hstep hno
  obtain ⟨hidle, hrun⟩ := ih fun i t hmem => hno i t (List.mem_append_left _ hmem)
  cases e with
  | start j op =>
    refine ⟨fun i t c hrunning => ?_, hrun.snoc ⟨trivial, hstep⟩⟩
    obtain ⟨-, rfl⟩ := Mutex.exec_start hstep
    rcases eq_or_ne i j with rfl | hij
    · obtain ⟨rfl, -⟩ : op = .addThread t ∧ _ = c := by simpa using hrunning
      exact hno i t (by simp)
    · exact hidle i t c (by simpa [hij] using hrunning)
  | step j =>
    refine ⟨fun i t c hrunning => ?_, hrun.snoc ⟨hidle j, hstep⟩⟩
    obtain ⟨op, c₀, c₁, d, hj, -, rfl⟩ := Mutex.exec_step hstep
    rcases eq_or_ne i j with rfl | hij
    · simp only [Function.update_self, Option.map_eq_some_iff, Prod.mk.injEq] at hrunning
      obtain ⟨c₂, -, rfl, -⟩ := hrunning
      exact hidle i t c₀ hj
    · exact hidle i t c (by simpa [hij] using hrunning)

end

def twoAdditions : List (Mutex.Event Nat Op) :=
  [.start 0 (.addEntry 10 0x1000 false 0x5000), .step 0, .start 1 (.addEntry 11 0x2000 false 0x6000),
    .start 2 (.schedule 0 (Thread.startContext 0 false))] ++
  List.replicate 10 (.step 0) ++ List.replicate 9 (.step 2) ++ List.replicate 11 (.step 1)

theorem twoAdditions_exec : (twoAdditions.foldlM program.exec { data :=
  idleMachine }).isSome = true := by decide

theorem run_disciplined_iff_twoAdditions :
    ∃ s, Run (Guarded program.Disciplined (Steps program.exec)) { data := idleMachine } twoAdditions s ∧
      addedThreads s.finished = [10, 11] ∧ Exclusive idleMachine s := by
  obtain ⟨s, hs⟩ := Option.isSome_iff_exists.mp twoAdditions_exec
  have hno : ∀ i t, .start i (.addThread t) ∉ twoAdditions := by
    simp [twoAdditions]
  obtain ⟨-, hrun⟩ := run_noAddThread (run_steps_iff.mpr hs) hno
  obtain ⟨hiff, hexclusive⟩ := @run_disciplined_iff Nat idleMachine _ s twoAdditions idleMachine_booted
  refine ⟨s, hiff.mpr hrun, ?_, hexclusive hrun⟩
  have hfinished : (twoAdditions.foldlM program.exec { data := idleMachine }).map
      (fun s => addedThreads s.finished) =
      some [10, 11] := by decide
  rw [hs] at hfinished
  exact Option.some.inj hfinished

def racingPast : List (Mutex.Event Nat Op) :=
  [.start 0 (.addEntry 10 0x1000 false 0x5000), .start 1 (.addThread 11)] ++ List.replicate 3 (.step 0)

def racingRest : List (Mutex.Event Nat Op) :=
  [.step 1, .step 0, .step 0] ++ (List.replicate 6 [.step 1, .step 0]).flatten ++ [.step 1]

/-- Both additions issue pid 0, and thread 10 is lost. -/
theorem racing_not_disciplined :
    ∃ s, Run (Steps program.exec) { data := idleMachine } (racingPast ++ .step 1 :: racingRest) s ∧
      addedThreads s.finished = [10, 11] ∧ (s.data.threads 10).pid = (s.data.threads 11).pid ∧
      ((s.data.queue 0).head = some 11 ∧ (s.data.threads 11).next = none) ∧
      ¬Run (Guarded program.Disciplined (Steps program.exec)) { data := idleMachine }
        (racingPast ++ .step 1 :: racingRest) s := by
  obtain ⟨u, hu⟩ : ∃ u, racingPast.foldlM program.exec { data := idleMachine } = some u :=
    Option.isSome_iff_exists.mp (by decide)
  obtain ⟨s, hs⟩ : ∃ s,
    (racingPast ++ .step 1 :: racingRest).foldlM program.exec { data := idleMachine } = some s :=
    Option.isSome_iff_exists.mp (by decide)
  have hread :
      ((racingPast ++ .step 1 :: racingRest).foldlM program.exec { data := idleMachine }).map (fun s =>
      (addedThreads s.finished, (s.data.threads 10).pid, (s.data.threads 11).pid, (s.data.queue 0).head,
        (s.data.threads 11).next)) = some ([10, 11], 0, 0, some 11, none) := by decide
  have hpast : (racingPast.foldlM program.exec { data := idleMachine }).map
      (fun s => (s.running 1, s.holder)) =
      some (some (.addThread 11, .readPid), some 0) := by decide
  rw [hs, Option.map_some, Option.some_inj] at hread
  rw [hu, Option.map_some, Option.some_inj] at hpast
  simp only [Prod.mk.injEq] at hread hpast
  obtain ⟨hfinished, hten, heleven, hhead, hnext⟩ := hread
  obtain ⟨hrunning, hholder⟩ := hpast
  refine ⟨s, run_steps_iff.mpr hs, hfinished, hten.trans heleven.symm, ⟨hhead, hnext⟩, fun hrun => ?_⟩
  -- the first step of `AddThread(11)` reads `curPid` under the lock of context 0
  have hheld := (run_guarded_iff.mp hrun).2 racingPast (.step 1) racingRest u rfl
    (run_steps_iff.mpr hu) _ _ hrunning (.inl rfl)
  rw [hholder] at hheld
  exact absurd hheld (by decide)

end Scheduler

end LimineOS
