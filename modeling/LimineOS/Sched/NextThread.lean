import LimineOS.Sched.Dispatch

/-!
# When `GetNextThread` returns

`GetNextThread` gives up only on the count of the queue, which counts exited
threads as well. So it goes round for ever on a queue whose threads have all
exited; on every other queue it ends on the next thread that can run
(`run_picks_iff`).
-/

namespace LimineOS

open LinkedList Transition

namespace Scheduler

/-- `GetNextThread` returns the first thread of the round that can run, and null
if there is none. -/
def Picks (s : Scheduler) (id : Nat) (L : List ThreadPtr) : Prop :=
  ∃ fuel s', getNextThread fuel s id =
    some ((roundFrom L (s.queue id).current).find? fun t => (s.threads t).canRun, s')

def queued (es : List Event) (id : Nat) : List ThreadPtr := if id = 0 then added es else []

section
variable {s₀ s s' : Scheduler} {es : List Event} {e : Event} {id fuel : Nat} {L : List ThreadPtr}

theorem mem_roundFrom {c : Option ThreadPtr} {t : ThreadPtr} : t ∈ roundFrom L c ↔ t ∈ L :=
  List.mem_rotate

theorem getNextThread_exited (h : QueueOk s id L) (hcount : (s.queue id).numThreads ≠ 0)
    (hexited : ∀ t ∈ L, (s.threads t).canRun = false) : getNextThread fuel s id = none := by
  cases hc : getNextThread fuel s id with
  | none => rfl
  | some r =>
    rcases getNextThread_cases h hc with ⟨-, hzero, -⟩ | ⟨t, ht, -, hrun, -⟩
    · exact absurd hzero hcount
    · rw [hexited t ht] at hrun
      exact absurd hrun (by decide)

/-- The search ends where the count is zero or some thread can run, and it is
right unless the count is zero with a thread that can run. -/
theorem QueueOk.picks_iff (h : QueueOk s id L) :
    Picks s id L ↔ ((s.queue id).numThreads = 0 ↔ ∀ t ∈ L, (s.threads t).canRun = false) := by
  have hnone : (roundFrom L (s.queue id).current).find? (fun t => (s.threads t).canRun) = none ↔
      ∀ t ∈ L, (s.threads t).canRun = false := by
    rw [List.find?_eq_none]
    exact forall_congr' fun t => by rw [mem_roundFrom, Bool.not_eq_true]
  by_cases hcount : (s.queue id).numThreads = 0
  · rw [iff_true_left hcount, ← hnone]
    have hstop : ∀ fuel, getNextThread (fuel + 1) s id = some (none, s) := fun fuel => by
      simp only [getNextThread, hcount, ↓reduceIte]
    constructor
    · rintro ⟨fuel, s', hc⟩
      cases fuel with
      | zero => simp [getNextThread] at hc
      | succ fuel => exact (Prod.mk.inj (Option.some.inj ((hstop fuel).symm.trans hc))).1.symm
    · intro hfind
      exact ⟨1, s, by rw [hfind]; exact hstop 0⟩
  · rw [iff_false_left hcount]
    constructor
    · rintro ⟨fuel, s', hc⟩ hexited
      rw [getNextThread_exited h hcount hexited] at hc
      exact absurd hc (by simp)
    · intro hrun
      have hsome := mt hnone.mp hrun
      obtain ⟨t, ht⟩ := Option.ne_none_iff_exists'.mp hsome
      obtain ⟨hcan, N, rest, hround, hN⟩ := List.find?_eq_some_iff_append.mp ht
      have hne : L ≠ [] := by
        rintro rfl
        exact hrun (by simp)
      have hf := h.facing_roundFrom hne
      rw [hround] at hf
      obtain ⟨hnext, -⟩ :=
        getNextThread_ok h hcount hf (fun c hc => by simpa using hN c hc) hcan (Nat.lt_succ_self _)
      exact ⟨_, _, by rw [ht]; exact hnext⟩

-- ---------------------------------------------------------------------------
-- Runs
-- ---------------------------------------------------------------------------

theorem enqueue_queue_of_ne {t : ThreadPtr} (hcore : s.curCpuCore = 0) (hid : id ≠ 0) :
    (s.enqueue t).queue id = s.queue id := by
  obtain ⟨threads, heq, -⟩ := enqueue_eq s t
  rw [heq, queue_modifyQueue_of_ne (hcore ▸ hid)]

theorem Sound.step_queue (h : Sound s es) (hstep : Step s e s') (hid : id ≠ 0) :
    s'.queue id = s.queue id := by
  cases e with
  | addEntry t entry isUser rootTable =>
    obtain ⟨s₁, hlock, rfl⟩ :=
      Option.map_eq_some_iff.mp (show s.addEntry t entry isUser rootTable = some s' from hstep)
    rw [lock, h.mutex] at hlock
    obtain rfl := Option.some.inj hlock
    exact enqueue_queue_of_ne h.core hid
  | addThread t entry isUser rootTable =>
    obtain rfl := hstep
    exact enqueue_queue_of_ne h.core hid
  | tick regs next =>
    obtain ⟨fuel, hsched⟩ := hstep
    obtain ⟨L, hq, hL⟩ := h.curQueue
    have hsaved : (s.saveContext regs).queue id = s.queue id := by rw [saveContext_eq]
    rcases schedule_cases h.mutex h.boot hq hsched with ⟨rfl, rfl⟩ | ⟨t, ht, rfl, -, rfl⟩
    · exact hsaved
    · rcases hL with ⟨hcpu, rfl⟩ | ⟨-, rfl⟩
      · have hother : ((s.saveContext regs).setCurrent s.curCpu t).queue id =
            (s.saveContext regs).queue id :=
          queue_modifyQueue_of_ne (hcpu ▸ hid)
        exact hother.trans hsaved
      · exact absurd ht List.not_mem_nil
  | deleteCurThread =>
    obtain ⟨current, -, heq⟩ := Option.bind_eq_some_iff.mp (show s.deleteCurThread = some s' from hstep)
    obtain rfl := Option.some.inj heq
    rfl

theorem run_queue (hb : Booted s₀) (hrun : Run Step s₀ es s) (hfresh : (added es).Nodup)
    (hid : id ≠ 0) :
    s.queue id = s₀.queue id := by
  refine (hrun.history (I := fun es s => (added es).Nodup → Sound s es ∧ s.queue id = s₀.queue id)
    (fun _ => ⟨hb.sound, rfl⟩) ?_ hfresh).2
  intro es s e s' ih hstep hfresh
  have hbefore : (added es).Nodup := by
    rw [added_snoc] at hfresh
    exact hfresh.of_append_left
  obtain ⟨hs, hqueue⟩ := ih hbefore
  exact ⟨hs.step hstep hfresh, (hs.step_queue hstep hid).trans hqueue⟩

theorem run_queueOk (hb : Booted s₀) (hempty : s₀.queue id = {}) (hrun : Run Step s₀ es s)
    (hfresh : (added es).Nodup) :
    QueueOk s id (queued es id) := by
  rw [queued]
  split_ifs with hid
  · rw [hid]
    exact (run_sound hb hrun hfresh).queue
  · have hqueue := (run_queue hb hrun hfresh hid).trans hempty
    refine ⟨?_, List.nodup_nil, ?_, ?_, ?_⟩ <;> rw [hqueue]
    · rfl
    · rfl
    · rfl
    · simp

/-- In every state that additions, ticks and exits lead to, the search ends as it
should on every queue, exactly where the queue counts no thread if and only if
none can run. -/
theorem run_picks_iff (hb : Booted s₀) (hempty : s₀.queue id = {}) (hrun : Run Step s₀ es s)
    (hfresh : (added es).Nodup) :
    Picks s id (queued es id) ↔
      ((s.queue id).numThreads = 0 ↔ ∀ t ∈ queued es id, (s.threads t).canRun = false) :=
  (run_queueOk hb hempty hrun hfresh).picks_iff

end

theorem run_picks_iff_threeThreads : Picks afterThreeThreads 0 (queued threeThreads 0) :=
  (run_picks_iff idleMachine_booted rfl threeThreads_run (by decide)).mpr (by decide)

def oneThread : List Event :=
  [.addEntry 10 0x1000 false 0x5000, .tick (Thread.startContext 0 false) (some 10), .deleteCurThread]

/-- `GetNextThread` does not return, with no thread left that can run. -/
theorem oneThread_not_picks : Booted idleMachine ∧ idleMachine.queue 0 = {} ∧ (added oneThread).Nodup ∧
    ∃ s, Run Step idleMachine oneThread s ∧ (∀ t ∈ queued oneThread 0, (s.threads t).canRun = false) ∧
      (∀ fuel, getNextThread fuel s 0 = none) ∧ ¬Picks s 0 (queued oneThread 0) := by
  obtain ⟨s, hs⟩ : ∃ s, oneThread.foldlM (exec 4) idleMachine = some s :=
    Option.isSome_iff_exists.mp (by decide)
  have hrun : Run Step idleMachine oneThread s := (run_steps_iff.mpr hs).mono exec_step
  have hsound := run_sound idleMachine_booted hrun (by decide)
  have hexited : ∀ t ∈ queued oneThread 0, (s.threads t).canRun = false := by
    intro t ht
    rw [hsound.runnable t ht]
    revert t
    decide
  have hcount : (s.queue 0).numThreads ≠ 0 := by
    rw [hsound.queue.count]
    decide
  have hnone : ∀ fuel, getNextThread fuel s 0 = none := fun fuel =>
    getNextThread_exited (L := queued oneThread 0) hsound.queue hcount hexited
  refine ⟨idleMachine_booted, rfl, by decide, s, hrun, hexited, hnone, ?_⟩
  rintro ⟨fuel, s', hc⟩
  rw [hnone fuel] at hc
  exact absurd hc (by simp)

end Scheduler

end LimineOS
