import LimineOS.Sched.Runs
import LimineOS.Mm.PmmRuns

/-!
# What the scheduler guarantees

Over every run from a booted scheduler: the queue holds the threads added, in
order, and `GetNextThread` goes round those that can run (`run_roundRobin`);
a dispatch loads the context with which its thread was left (`run_schedule`).
-/

namespace LimineOS

open LinkedList Transition

namespace Scheduler

/-- The threads of `L` in the order in which the cursor meets them; from the
null cursor the head comes last. -/
def roundFrom (L : List ThreadPtr) (current : Option ThreadPtr) : List ThreadPtr :=
  L.rotate (match current with
    | none => 1
    | some c => L.idxOf c + 1)

section
variable {s₀ s s' : Scheduler} {es : List Event} {id : Nat} {L : List ThreadPtr}

theorem QueueOk.facing_roundFrom (h : QueueOk s id L) (hne : L ≠ []) :
    Facing s id L (roundFrom L (s.queue id).current) := by
  obtain ⟨round, c, hc, hr⟩ := h.facing hne
  refine ⟨c, hc, ?_⟩
  have hround : roundFrom L (s.queue id).current = round := by
    rw [hr.eq_rotate h.nodup]
    cases hcur : (s.queue id).current with
    | some current =>
      rw [hcur] at hc
      obtain rfl := Option.some.inj hc
      rfl
    | none =>
      rw [hcur, h.linked.head] at hc
      obtain ⟨a, l, rfl⟩ := List.exists_cons_of_ne_nil hne
      obtain rfl := Option.some.inj hc
      rw [List.idxOf_cons_self]
      rfl
  rwa [hround]

/-- Round robin without loss or duplication. -/
theorem run_roundRobin (hb : Booted s₀) (hrun : Run Step s₀ es s) (hfresh : (added es).Nodup)
    (hcount : (added es).length < 2 ^ 31) :
    Linked (fun t => (s.threads t).next) (s.queue 0).head (added es) ∧
      ((added es).map fun t => (s.threads t).pid).Nodup ∧
      (s.queue 0).tail = (added es).getLast? ∧
      (s.queue 0).numThreads = (added es).length ∧
      (∀ c, (s.queue 0).current = some c → c ∈ added es) ∧
      ∀ k, k = ((added es).filter fun t => (s.threads t).canRun).length → 1 ≤ k →
        ((roundFrom (added es) (s.queue 0).current).filter fun t => (s.threads t).canRun).Perm
            ((added es).filter fun t => (s.threads t).canRun) ∧
          ∀ fuel, (added es).length ≤ fuel → nextThreads fuel k s 0 =
            some (((roundFrom (added es) (s.queue 0).current).filter fun t =>
              (s.threads t).canRun).map some) := by
  have hs := run_sound hb hrun hfresh
  have hnum : (s.queue 0).numThreads = (added es).length := by
    rw [hs.queue.count, count32_of_lt _ hcount]
  refine ⟨hs.queue.linked, ?_, hs.queue.tail, hnum, hs.queue.current, ?_⟩
  · rw [hs.pids, List.nodup_map_iff_inj_on List.nodup_range]
    intro i hi j hj hij
    rw [List.mem_range] at hi hj
    rw [count32_of_lt i (by omega), count32_of_lt j (by omega)] at hij
    exact Int.ofNat_inj.mp hij
  · rintro k rfl hk
    have hne : added es ≠ [] := by
      intro hnil
      rw [hnil] at hk
      simp at hk
    have hf := hs.queue.facing_roundFrom hne
    have hperm : ((roundFrom (added es) (s.queue 0).current).filter fun t => (s.threads t).canRun).Perm
        ((added es).filter fun t => (s.threads t).canRun) := (List.rotate_perm _ _).filter _
    refine ⟨hperm, fun fuel hfuel => ?_⟩
    have hpos : 0 < (added es).length := List.length_pos_of_ne_nil hne
    have hcalls := nextThreads_ok hs.queue (by rw [hnum]; omega) hf hfuel hperm.length_eq.ge
    rw [hcalls, hperm.length_eq.symm, List.take_length]

/-- Context switching loses nothing. A tick touches the saved context of no
thread but the one it preempts; the thread it dispatches has been added and
has not exited, and gets its own context and its own address space. -/
theorem run_schedule {regs : SavedRegs} {next : Option ThreadPtr} (hb : Booted s₀)
    (hrun : Run Step s₀ es s)
    (hfresh : (added es).Nodup) (hstep : Step s (.tick regs next) s') :
    (∀ c, dispatched es.reverse ≠ some c → (s'.threads c).ctxt = (s.threads c).ctxt) ∧
      ∀ t, next = some t →
        t ∈ added es ∧ exited t es.reverse = false ∧
          s'.loaded = some (s'.threads t).ctxt ∧
          s'.loaded = savedContext t (Event.tick regs next :: es.reverse) ∧
          s'.currentDir = (s'.threads t).rootTable ∧ s'.cr3 = (s'.threads t).rootTable := by
  have hs := run_sound hb hrun hfresh
  have hs' := hs.tick hstep
  obtain ⟨fuel, hsched⟩ := hstep
  obtain ⟨L, hq, hL⟩ := hs.curQueue
  have hsaved : ∀ c, dispatched es.reverse ≠ some c →
      ((s.saveContext regs).threads c).ctxt = (s.threads c).ctxt := by
    intro c hc
    rw [saveContext_threads, hs.running, if_neg hc]
  rcases schedule_cases hs.mutex hs.boot hq hsched with ⟨rfl, rfl⟩ | ⟨t, ht, rfl, hrun, rfl⟩
  · exact ⟨hsaved, fun t ht => by simp at ht⟩
  · refine ⟨hsaved, fun u hu => ?_⟩
    obtain rfl := Option.some.inj hu
    have hmem : t ∈ added es := by
      rcases hL with ⟨-, rfl⟩ | ⟨-, rfl⟩
      · exact ht
      · simp at ht
    have hmem' : t ∈ added (es ++ [Event.tick regs (some t)]) := by
      rw [added_snoc]
      exact List.mem_append_left _ hmem
    have hcontext := hs'.contexts t hmem'
    rw [List.reverse_append, List.reverse_singleton, List.singleton_append] at hcontext
    have hlive : exited t es.reverse = false := by
      rw [hs.runnable t hmem, Bool.not_eq_true'] at hrun
      exact hrun
    exact ⟨hmem, hlive, rfl, hcontext.symm, rfl, rfl⟩

end

-- ---------------------------------------------------------------------------
-- A small run
-- ---------------------------------------------------------------------------

def idleMachine : Scheduler where
  threads := fun _ => .build 0 false 0
  cpus := Function.update (fun _ => {}) 0 { kstackPhys := 0x2000 }
  curCpu := 0

theorem idleMachine_booted : Booted idleMachine := by
  obtain ⟨hlast, hfree⟩ := PhysicalMemory.sixteenPages_freePages fun _ => 0
  obtain ⟨pmm', halloc, -⟩ := hfree.alloc 4 2 (by decide) (by decide) (by omega) (by decide) (by decide)
    (by rw [hlast]; decide)
  have hinit : initializeCpus { threads := fun _ => .build 0 false 0, curCpu := 0 }
      (PhysicalMemory.initializeMemory PhysicalMemory.sixteenPages fun _ => 0) [0] =
        some (idleMachine, pmm') := by
    simp only [initializeCpus, List.foldlM_cons, initializeCpu, halloc]
    rfl
  exact initializeCpus_booted (fun _ => rfl) rfl rfl rfl hinit

/-- Three threads; the second runs first, exits and is preempted. -/
def threeThreads : List Event :=
  [.addEntry 10 0x1000 false 0x5000, .addThread 20 0x2000 true 0x6000, .addThread 30 0x3000 true 0x7000,
    .tick (Thread.startContext 0 false) (some 20), .deleteCurThread]

theorem threeThreads_exec : (threeThreads.foldlM (exec 4) idleMachine).isSome = true := by decide

def afterThreeThreads : Scheduler := (threeThreads.foldlM (exec 4) idleMachine).get threeThreads_exec

theorem threeThreads_run : Run Step idleMachine threeThreads afterThreeThreads :=
  (run_steps_iff.mpr (Option.some_get threeThreads_exec).symm).mono exec_step

theorem run_roundRobin_threeThreads :
    nextThreads 3 2 afterThreeThreads 0 = some [some 30, some 10] := by
  obtain ⟨-, -, -, -, -, hnext⟩ :=
    run_roundRobin idleMachine_booted threeThreads_run (by decide) (by decide)
  exact (hnext 2 (by decide) (by decide)).2 3 (by decide)

theorem afterThreeThreads_tick :
    (afterThreeThreads.exec 4 (.tick (Thread.startContext 0x42 false) (some 30))).isSome =
      true := by decide

theorem run_schedule_threeThreads :
    ∃ s', Step afterThreeThreads (.tick (Thread.startContext 0x42 false) (some 30)) s' ∧
    s'.loaded = some (Thread.startContext 0x3000 true) := by
  obtain ⟨s', hs'⟩ := Option.isSome_iff_exists.mp afterThreeThreads_tick
  have hstep := exec_step hs'
  obtain ⟨-, hdispatch⟩ := run_schedule idleMachine_booted threeThreads_run (by decide) hstep
  obtain ⟨-, -, -, hloaded, -⟩ := hdispatch 30 rfl
  exact ⟨s', hstep, hloaded.trans (by decide)⟩

end Scheduler

end LimineOS
