import LimineOS.Sched.Dispatch

/-!
# Segment selectors

The selectors of a thread come from four places that have to agree: the order
of the entries in `GDT`, the value that `SysCalls::Init` writes into STAR, the
constructor of `Thread`, and the frames that ticks save and `Schedule` reloads.
`Machine` runs the scheduler together with the selectors that the processor has
loaded. `sysret` does not look at the table, `iretq` does.
-/

namespace LimineOS

open Transition

structure GDTEntry where
  limit0 : BitVec 16
  base0 : BitVec 16
  base1 : BitVec 8
  access : BitVec 8
  limit1 : BitVec 4
  flags : BitVec 4
  base2 : BitVec 8
  deriving DecidableEq, Repr

structure TSSEntry extends GDTEntry where
  base3 : BitVec 32
  rsv : BitVec 32
  deriving DecidableEq, Repr

structure GDT where
  null : GDTEntry
  kernelCode : GDTEntry
  kernelData : GDTEntry
  userCode : GDTEntry
  userData : GDTEntry
  tss : TSSEntry
  deriving DecidableEq, Repr

namespace GDT

def tssSize : Nat := 0x68

def setupGdt (tssBase : BitVec 64) : GDT where
  null := ⟨0, 0, 0, 0, 0, 0, 0⟩
  kernelCode := ⟨0xFFFF, 0, 0, 0x9A, 0xFF, 0xA, 0⟩
  kernelData := ⟨0xFFFF, 0, 0, 0x92, 0xFF, 0xC, 0⟩
  userCode := ⟨0xFFFF, 0, 0, 0xFA, 0xFF, 0xA, 0⟩
  userData := ⟨0xFFFF, 0, 0, 0xF2, 0xFF, 0xC, 0⟩
  tss :=
    { limit0 := BitVec.ofNat 16 tssSize
      base0 := tssBase.extractLsb' 0 16
      base1 := tssBase.extractLsb' 16 8
      access := 0x89
      limit1 := 0
      flags := 0
      base2 := tssBase.extractLsb' 24 8
      base3 := tssBase.extractLsb' 32 32
      rsv := 0 }

/-- The second eight bytes, as the processor reads them when they are selected. -/
def tssUpper (tss : TSSEntry) : GDTEntry where
  limit0 := tss.base3.extractLsb' 0 16
  base0 := tss.base3.extractLsb' 16 16
  base1 := tss.rsv.extractLsb' 0 8
  access := tss.rsv.extractLsb' 8 8
  limit1 := tss.rsv.extractLsb' 16 4
  flags := tss.rsv.extractLsb' 20 4
  base2 := tss.rsv.extractLsb' 24 8

def entries (g : GDT) : List GDTEntry :=
  [g.null, g.kernelCode, g.kernelData, g.userCode, g.userData, g.tss.toGDTEntry, tssUpper g.tss]

/-- The entry that a selector names; bit 2 would name a local table, of which
there is none. -/
def select (g : GDT) (selector : BitVec 16) : Option GDTEntry :=
  if selector.getLsbD 2 then none else g.entries[(selector >>> 3).toNat]?

end GDT

def GDTEntry.IsCode (d : GDTEntry) : Prop :=
  d.access.getLsbD 7 ∧ d.access.getLsbD 4 ∧ d.access.getLsbD 3

def GDTEntry.IsData (d : GDTEntry) : Prop :=
  d.access.getLsbD 7 ∧ d.access.getLsbD 4 ∧ ¬d.access.getLsbD 3

def GDTEntry.dpl (d : GDTEntry) : BitVec 2 := d.access.extractLsb' 5 2

def rpl (selector : BitVec 16) : BitVec 2 := selector.extractLsb' 0 2

instance (d : GDTEntry) : Decidable d.IsCode := inferInstanceAs (Decidable (_ ∧ _))

instance (d : GDTEntry) : Decidable d.IsData := inferInstanceAs (Decidable (_ ∧ _))

/-- What `iretq` asks of the selectors in the frame. -/
structure GDT.Loads (g : GDT) (cs ss : BitVec 16) : Prop where
  code : ∃ d, g.select cs = some d ∧ d.IsCode ∧ d.dpl = rpl cs
  data : ∃ d, g.select ss = some d ∧ d.IsData ∧ d.dpl = rpl ss

namespace SysCalls

def sysretSelectors : BitVec 32 := 0x10

def syscallSelectors : BitVec 32 := 0x20

/-- What `Init` writes into STAR, the high half from `edx`. -/
def star : BitVec 64 := (sysretSelectors <<< 16 ||| syscallSelectors) ++ (0 : BitVec 32)

end SysCalls

def sysretCs (star : BitVec 64) : BitVec 16 := (star.extractLsb' 48 16 + 16) ||| 3

def sysretSs (star : BitVec 64) : BitVec 16 := (star.extractLsb' 48 16 + 8) ||| 3

namespace Scheduler

/-- `SyscallHandler`, where `rax` is the number of the call. -/
def syscallHandler (s : Scheduler) (rax : BitVec 64) : Option Scheduler :=
  if rax = 0 then s.deleteCurThread else some s

end Scheduler

/-- `objects` are the threads constructed so far, `called` those that have made
a system call. -/
structure Machine where
  sched : Scheduler
  cs : BitVec 16
  ss : BitVec 16
  objects : List ThreadPtr := []
  called : List ThreadPtr := []

namespace Machine

open Scheduler (Sound Booted added dispatched savedContext)

def executing (m : Machine) : Option ThreadPtr := (m.sched.queue m.sched.curCpu).current

/-- The frame that a tick leaves through: `Schedule` pops the context of the
next thread, and without one the interrupt stub pops the frame it has pushed. -/
def frame (m : Machine) (regs : SavedRegs) : Option ThreadPtr → SavedRegs
  | some t => ((m.sched.saveContext regs).threads t).ctxt
  | none => regs

inductive Event
  | add (e : Scheduler.Event)
  | tick (regs : SavedRegs) (next : Option ThreadPtr)
  | syscall (rax : BitVec 64)

/-- `operator new` returns no object that is in use. A tick pushes the selectors
that are loaded. Nothing interrupts the handler of a system call, since SFMASK
clears the interrupt flag. A run goes on where `iretq` would fault. -/
def Step (m : Machine) : Event → Machine → Prop
  | .add e, m' => ∃ t sched, e.fresh = some t ∧ t ∉ m.objects ∧ Scheduler.Step m.sched e sched ∧
      m' = { m with sched, objects := m.objects ++ [t] }
  | .tick regs next, m' => ∃ sched, regs.cs = m.cs.setWidth 64 ∧ regs.ss = m.ss.setWidth 64 ∧
      Scheduler.Step m.sched (.tick regs next) sched ∧
      m' = { m with
        sched
        cs := (m.frame regs next).cs.setWidth 16
        ss := (m.frame regs next).ss.setWidth 16 }
  | .syscall rax, m' => ∃ t sched, m.executing = some t ∧ m.sched.syscallHandler rax = some sched ∧
      m' = { m with
        sched
        cs := sysretCs SysCalls.star
        ss := sysretSs SysCalls.star
        called := t :: m.called }

def exec (fuel : Nat) (m : Machine) : Event → Option Machine
  | .add e => do
    let t ← e.fresh
    if t ∈ m.objects then none
    else
      let sched ← m.sched.exec fuel e
      some { m with sched, objects := m.objects ++ [t] }
  | .tick regs next =>
    if regs.cs = m.cs.setWidth 64 ∧ regs.ss = m.ss.setWidth 64 then do
      let sched ← m.sched.exec fuel (.tick regs next)
      some { m with
        sched
        cs := (m.frame regs next).cs.setWidth 16
        ss := (m.frame regs next).ss.setWidth 16 }
    else none
  | .syscall rax => do
    let t ← m.executing
    let sched ← m.sched.syscallHandler rax
    some { m with
      sched
      cs := sysretCs SysCalls.star
      ss := sysretSs SysCalls.star
      called := t :: m.called }

/-- The machine in `kernel_entry`, with what `LoadGdt` has loaded. -/
def boot (s : Scheduler) : Machine := { sched := s, cs := 0x08, ss := 0x10 }

/-- Every `iretq` loads a code and a data segment of the privilege level that
its selectors ask for. -/
def Returns (tssBase : BitVec 64) (m : Machine) : Event → Prop
  | .tick regs next =>
    (GDT.setupGdt tssBase).Loads ((m.frame regs next).cs.setWidth 16)
      ((m.frame regs next).ss.setWidth 16)
  | _ => True

def Uncalled (m : Machine) : Event → Prop
  | .tick _ next => ∀ t, next.or m.executing = some t → t ∉ m.called
  | _ => True

def Has (m : Machine) (t : ThreadPtr) (cs ss : BitVec 16) : Prop :=
  if t ∈ m.called then cs = sysretCs SysCalls.star ∧ ss = sysretSs SysCalls.star
  else ∃ isUser : Bool, cs = (if isUser then 0x1B else 0x08) ∧ ss = if isUser then 0x23 else 0x10

structure Selected (m : Machine) : Prop where
  sound : ∃ es, Sound m.sched es ∧ added es = m.objects
  idle : m.executing = none → m.cs = 0x08 ∧ m.ss = 0x10
  loaded : ∀ t, m.executing = some t → m.Has t m.cs m.ss
  waiting : ∀ t ∈ m.objects, m.executing ≠ some t →
    m.Has t ((m.sched.threads t).ctxt.cs.setWidth 16) ((m.sched.threads t).ctxt.ss.setWidth 16)
  called : ∀ t ∈ m.called, t ∈ m.objects

-- ---------------------------------------------------------------------------
-- The selectors that each event leaves
-- ---------------------------------------------------------------------------

section
variable {m m' : Machine} {s₀ : Scheduler} {e : Event} {es : List Event} {tssBase : BitVec 64}
  {cs ss : BitVec 16}
  {t : ThreadPtr} {regs : SavedRegs} {next : Option ThreadPtr} {rax : BitVec 64}

theorem setWidth_pushed (selector : BitVec 16) :
    (selector.setWidth 64).setWidth 16 = selector := by simp

theorem frame_some :
    m.frame regs (some t) = if m.executing = some t then regs else (m.sched.threads t).ctxt := by
  rw [frame, Scheduler.saveContext_threads]
  rfl

theorem Selected.past (h : m.Selected) :
    ∃ past, Sound m.sched past ∧ added past = m.objects ∧ m.executing = dispatched past.reverse := by
  obtain ⟨past, hsound, hadded⟩ := h.sound
  exact ⟨past, hsound, hadded, hsound.running⟩

theorem Selected.nodup (h : m.Selected) : m.objects.Nodup := by
  obtain ⟨past, hsound, hadded⟩ := h.sound
  exact hadded ▸ hsound.queue.nodup

theorem Selected.executing_mem (h : m.Selected) (ht : m.executing = some t) : t ∈ m.objects := by
  obtain ⟨past, hsound, hadded⟩ := h.sound
  exact hadded ▸ (hsound.current_mem ht).2

theorem Has.congr (h : m.Has t cs ss) (hcalled : t ∈ m'.called ↔ t ∈ m.called) : m'.Has t cs ss := by
  unfold Has at h ⊢
  by_cases ht : t ∈ m.called
  · rw [if_pos ht] at h
    rwa [if_pos (hcalled.mpr ht)]
  · rw [if_neg ht] at h
    rwa [if_neg (mt hcalled.mp ht)]

theorem context_of_fresh {s s' : Scheduler} {past : List Scheduler.Event} {e : Scheduler.Event}
    {u : ThreadPtr}
    (h : Sound s past) (h' : Sound s' (past ++ [e])) (hfresh : e.fresh = some t)
    (hu : u ∈ added (past ++ [e])) :
    (∃ entry isUser, u = t ∧ (s'.threads u).ctxt = Thread.startContext entry isUser) ∨
      u ≠ t ∧ u ∈ added past ∧ (s'.threads u).ctxt = (s.threads u).ctxt := by
  have hsaved := h'.contexts u hu
  rw [List.reverse_append, List.reverse_singleton, List.singleton_append] at hsaved
  rw [Scheduler.added_snoc, hfresh, Option.toList_some] at hu
  cases e with
  | addEntry t' entry isUser | addThread t' entry isUser =>
    cases hfresh
    by_cases hut : u = t
    · subst hut
      rw [savedContext, if_pos rfl] at hsaved
      exact .inl ⟨entry, isUser, rfl, (Option.some.inj hsaved).symm⟩
    · have hmem : u ∈ added past :=
        (List.mem_append.mp hu).resolve_right fun h => hut (List.mem_singleton.mp h)
      rw [savedContext, if_neg (Ne.symm hut), h.contexts u hmem] at hsaved
      exact .inr ⟨hut, hmem, (Option.some.inj hsaved).symm⟩
  | tick | deleteCurThread => cases hfresh

theorem Selected.add {e : Scheduler.Event} (h : m.Selected) (hstep : m.Step (.add e) m') :
    m'.Selected := by
  obtain ⟨t, sched, hfresh, hnew, hsched, rfl⟩ := hstep
  obtain ⟨past, hsound, hadded, hrunning⟩ := h.past
  have hadded' : added (past ++ [e]) = m.objects ++ [t] := by
    rw [Scheduler.added_snoc, hfresh, hadded]
    rfl
  have hnodup : (m.objects ++ [t]).Nodup := by
    rw [List.nodup_append_comm]
    exact List.nodup_cons.mpr ⟨hnew, h.nodup⟩
  have hsound' := hsound.step hsched (hadded' ▸ hnodup)
  have hexecuting : executing { m with sched, objects := m.objects ++ [t] } = m.executing := by
    refine hsound'.running.trans ?_
    rw [List.reverse_append, List.reverse_singleton, List.singleton_append, hrunning]
    cases e with
    | addEntry | addThread => rfl
    | tick | deleteCurThread => cases hfresh
  refine ⟨⟨_, hsound', hadded'⟩, fun hnone => h.idle (hexecuting ▸ hnone),
    fun u hu => ?_, fun u hu hne => ?_, fun u hu => ?_⟩
  · exact (h.loaded u (hexecuting ▸ hu)).congr Iff.rfl
  · rw [hexecuting] at hne
    rcases context_of_fresh hsound hsound' hfresh
      (hadded' ▸ hu) with ⟨entry, isUser, rfl, hctxt⟩ | ⟨-, hmem, hctxt⟩
    · have hcalled : u ∉ m.called := fun hu => hnew (h.called u hu)
      simp only [Has, if_neg hcalled, hctxt]
      refine ⟨isUser, ?_⟩
      cases isUser with
      | false => exact ⟨rfl, rfl⟩
      | true => exact ⟨rfl, rfl⟩
    · simp only [hctxt]
      exact (h.waiting u (hadded ▸ hmem) hne).congr Iff.rfl
  · exact List.mem_append_left _ (h.called u hu)

theorem Selected.frame (h : m.Selected) (hstep : m.Step (.tick regs next) m') :
    (next.or m.executing = none → (m.frame regs next).cs.setWidth 16 = 0x08 ∧
      (m.frame regs next).ss.setWidth 16 = 0x10) ∧ ∀ t, next.or m.executing = some t →
        m.Has t ((m.frame regs next).cs.setWidth 16) ((m.frame regs next).ss.setWidth 16) := by
  obtain ⟨sched, hcs, hss, hsched, rfl⟩ := hstep
  have hregs : regs.cs.setWidth 16 = m.cs ∧ regs.ss.setWidth 16 = m.ss := by
    rw [hcs, hss, setWidth_pushed, setWidth_pushed]
    exact ⟨rfl, rfl⟩
  cases next with
  | none =>
    rw [Option.none_or, Machine.frame, hregs.1, hregs.2]
    exact ⟨h.idle, h.loaded⟩
  | some t =>
    refine ⟨fun hnone => by simp at hnone, fun u hu => ?_⟩
    obtain rfl := Option.some.inj hu
    rw [frame_some]
    by_cases ht : m.executing = some t
    · rw [if_pos ht, hregs.1, hregs.2]
      exact h.loaded t ht
    · rw [if_neg ht]
      refine h.waiting t ?_ ht
      obtain ⟨past, hsound, hadded⟩ := h.sound
      have hsound' := hsound.tick hsched
      have hrunning := hsound'.running
      rw [List.reverse_append, List.reverse_singleton, List.singleton_append] at hrunning
      have hmem := (hsound'.current_mem hrunning).2
      rwa [Scheduler.added_of_not_fresh rfl, hadded] at hmem

theorem Selected.tick (h : m.Selected) (hstep : m.Step (.tick regs next) m') : m'.Selected := by
  obtain ⟨hnone, hsome⟩ := h.frame hstep
  obtain ⟨sched, hcs, hss, hsched, rfl⟩ := hstep
  obtain ⟨past, hsound, hadded, hrunning⟩ := h.past
  have hsound' := hsound.tick hsched
  have hadded' : added (past ++ [.tick regs next]) = m.objects :=
    (Scheduler.added_of_not_fresh rfl).trans hadded
  have hexecuting : (sched.queue sched.curCpu).current = next.or m.executing := by
    rw [hsound'.running, List.reverse_append, List.reverse_singleton, List.singleton_append, hrunning]
    cases next with
    | none => rfl
    | some t => rfl
  refine ⟨⟨_, hsound', hadded'⟩, fun hidle => hnone (hexecuting ▸ hidle),
    fun u hu => ?_, fun u hu hne => ?_, h.called⟩
  · exact (hsome u (hexecuting ▸ hu)).congr Iff.rfl
  · have hsaved := hsound'.contexts u (hadded' ▸ hu)
    rw [List.reverse_append, List.reverse_singleton, List.singleton_append, savedContext,
      ← hrunning] at hsaved
    by_cases hu' : m.executing = some u
    · -- the thread that the tick preempts
      rw [if_pos hu'] at hsaved
      rw [← Option.some.inj hsaved, hcs, hss, setWidth_pushed, setWidth_pushed]
      exact (h.loaded u hu').congr Iff.rfl
    · rw [if_neg hu', hsound.contexts u (hadded ▸ hu)] at hsaved
      rw [← Option.some.inj hsaved]
      exact (h.waiting u hu hu').congr Iff.rfl

theorem Selected.syscall (h : m.Selected) (hstep : m.Step (.syscall rax) m') : m'.Selected := by
  obtain ⟨t, sched, ht, hhandler, rfl⟩ := hstep
  have hmem := h.executing_mem ht
  -- whether or not the thread exits
  obtain ⟨hsound', hexecuting, hcontext⟩ : (∃ past, Sound sched past ∧ added past = m.objects) ∧
      (sched.queue sched.curCpu).current = m.executing ∧
      ∀ u ∈ m.objects, (sched.threads u).ctxt = (m.sched.threads u).ctxt := by
    rw [Scheduler.syscallHandler] at hhandler
    split_ifs at hhandler with hrax
    · obtain ⟨past, hsound, hadded, hrunning⟩ := h.past
      have hsound' := hsound.deleteCurThread hhandler
      have hadded' : added (past ++ [.deleteCurThread]) = m.objects :=
        (Scheduler.added_of_not_fresh rfl).trans hadded
      refine ⟨⟨_, hsound', hadded'⟩, ?_, fun u hu => ?_⟩
      · rw [hsound'.running, List.reverse_append, List.reverse_singleton, List.singleton_append,
          hrunning]
        rfl
      · have hsaved := hsound'.contexts u (hadded' ▸ hu)
        rw [List.reverse_append, List.reverse_singleton, List.singleton_append, savedContext,
          hsound.contexts u (hadded ▸ hu)] at hsaved
        exact (Option.some.inj hsaved).symm
    · cases hhandler
      exact ⟨h.sound, rfl, fun _ _ => rfl⟩
  refine ⟨hsound', fun hidle => ?_, fun u hu => ?_, fun u hu hne => ?_, fun u hu => ?_⟩
  · rw [executing, hexecuting, ht] at hidle
    cases hidle
  · rw [executing, hexecuting, ht] at hu
    cases hu
    rw [Has, if_pos List.mem_cons_self]
    exact ⟨rfl, rfl⟩
  · rw [executing, hexecuting] at hne
    have hut : u ≠ t := by
      rintro rfl
      exact hne ht
    simp only [hcontext u hu]
    exact (h.waiting u hu hne).congr (by simp [hut])
  · rcases List.mem_cons.mp hu with rfl | hu
    · exact hmem
    · exact h.called u hu

theorem Selected.step (h : m.Selected) (hstep : m.Step e m') : m'.Selected := by
  cases e with
  | add e => exact h.add hstep
  | tick regs next => exact h.tick hstep
  | syscall rax => exact h.syscall hstep

theorem boot_selected (hb : Booted s₀) : (boot s₀).Selected where
  sound := ⟨[], hb.sound, rfl⟩
  idle _ := ⟨rfl, rfl⟩
  loaded t ht := by
    rw [executing, boot, hb.idle] at ht
    cases ht
  waiting t ht := by cases ht
  called t ht := by cases ht

-- ---------------------------------------------------------------------------
-- What iretq finds
-- ---------------------------------------------------------------------------

theorem select_userCode :
    (GDT.setupGdt tssBase).select 0x1B = some ⟨0xFFFF, 0, 0, 0xFA, 0xFF, 0xA, 0⟩ := rfl

theorem select_userData :
    (GDT.setupGdt tssBase).select 0x23 = some ⟨0xFFFF, 0, 0, 0xF2, 0xFF, 0xC, 0⟩ := rfl

theorem select_kernelCode :
    (GDT.setupGdt tssBase).select 0x08 = some ⟨0xFFFF, 0, 0, 0x9A, 0xFF, 0xA, 0⟩ := rfl

theorem select_kernelData :
    (GDT.setupGdt tssBase).select 0x10 = some ⟨0xFFFF, 0, 0, 0x92, 0xFF, 0xC, 0⟩ := rfl

theorem loads_started (isUser : Bool) :
    (GDT.setupGdt tssBase).Loads (if isUser then 0x1B else 0x08) (if isUser then 0x23 else 0x10) := by
  cases isUser with
  | false =>
    exact ⟨⟨_, select_kernelCode, by decide, by decide⟩, ⟨_, select_kernelData, by decide, by decide⟩⟩
  | true =>
    exact ⟨⟨_, select_userCode, by decide, by decide⟩, ⟨_, select_userData, by decide, by decide⟩⟩

/-- After `sysret` the code selector names the user's data segment. -/
theorem not_loads_sysret :
    ¬(GDT.setupGdt tssBase).Loads (sysretCs SysCalls.star) (sysretSs SysCalls.star) := by
  intro h
  obtain ⟨d, hselect, hcode, -⟩ := h.code
  have hcs : sysretCs SysCalls.star = 0x23 := by decide
  rw [hcs, select_userData] at hselect
  obtain rfl := Option.some.inj hselect
  exact absurd hcode (by decide)

theorem Has.loads_iff (h : m.Has t cs ss) : (GDT.setupGdt tssBase).Loads cs ss ↔ t ∉ m.called := by
  unfold Has at h
  split_ifs at h with hcalled
  · obtain ⟨rfl, rfl⟩ := h
    exact iff_of_false not_loads_sysret (not_not_intro hcalled)
  · obtain ⟨isUser, rfl, rfl⟩ := h
    exact iff_of_true (loads_started isUser) hcalled

theorem Selected.returns_iff (h : m.Selected) (hstep : m.Step e m') :
    m.Returns tssBase e ↔ m.Uncalled e := by
  cases e with
  | add e => exact Iff.rfl
  | syscall rax => exact Iff.rfl
  | tick regs next =>
    obtain ⟨hnone, hsome⟩ := h.frame hstep
    show (GDT.setupGdt tssBase).Loads _ _ ↔ ∀ t, next.or m.executing = some t → t ∉ m.called
    cases hnext : next.or m.executing with
    | none =>
      obtain ⟨hcs, hss⟩ := hnone hnext
      rw [hcs, hss]
      exact iff_of_true (loads_started false) fun t ht => by cases ht
    | some t =>
      rw [(hsome t hnext).loads_iff]
      exact ⟨fun hcalled u hu => by cases hu; exact hcalled, fun hall => hall t rfl⟩

/-- In a run, every `iretq` finds valid selectors exactly when no tick returns
to a thread that has made a system call. -/
theorem run_returns_iff (hb : Booted s₀) :
    Run (Guarded (Returns tssBase) Step) (boot s₀) es m ↔ Run (Guarded Uncalled Step) (boot s₀) es m :=
  run_guarded_congr (boot_selected hb) Selected.step Selected.returns_iff

theorem exec_step {fuel : Nat} (h : m.exec fuel e = some m') : m.Step e m' := by
  cases e with
  | add e =>
    simp only [exec, Option.bind_eq_bind, Option.bind_eq_some_iff] at h
    obtain ⟨t, hfresh, h⟩ := h
    split_ifs at h with hnew
    obtain ⟨sched, hsched, h⟩ := Option.bind_eq_some_iff.mp h
    exact ⟨t, sched, hfresh, hnew, Scheduler.exec_step hsched, (Option.some.inj h).symm⟩
  | tick regs next =>
    simp only [exec] at h
    split_ifs at h with hregs
    obtain ⟨sched, hsched, h⟩ := Option.bind_eq_some_iff.mp h
    exact ⟨sched, hregs.1, hregs.2, Scheduler.exec_step hsched, (Option.some.inj h).symm⟩
  | syscall rax =>
    simp only [exec, Option.bind_eq_bind, Option.bind_eq_some_iff] at h
    obtain ⟨t, ht, sched, hsched, h⟩ := h
    exact ⟨t, sched, ht, hsched, (Option.some.inj h).symm⟩

end

def firstTick : List Event :=
  [.add (.addEntry 10 0x1000 true 0x5000), .tick (Thread.startContext 0 false) (some 10)]

def afterCall : SavedRegs := { Thread.startContext 0x1000 true with cs := 0x23, ss := 0x1B }

instance (m : Machine) (e : Event) : Decidable (m.Uncalled e) :=
  match e with
  | .tick _ next => inferInstanceAs (Decidable (∀ t ∈ next.or m.executing, t ∉ m.called))
  | .add _ | .syscall _ => isTrue trivial

/-- Two user threads. One is dispatched and makes a system call, and the tick after
it dispatches the other one. -/
def handedOver : List Event := [
  .add (.addEntry 10 0x1000 true 0x5000),
  .add (.addEntry 11 0x2000 true 0x6000),
  .tick (Thread.startContext 0 false) (some 11),
  .syscall 1,
  .tick afterCall (some 10)]

theorem run_returns_iff_handedOver : ∃ m,
    Run (Guarded (Returns 0) Step) (boot Scheduler.idleMachine) handedOver m ∧ m.called = [11] ∧
      m.executing = some 10 := by
  obtain ⟨m, hm⟩ : ∃ m, handedOver.foldlM (fun m e => if m.Uncalled e then m.exec 4 e else none)
      (boot Scheduler.idleMachine) = some m := ⟨_, rfl⟩
  have hrun : Run (Guarded Uncalled Step) (boot Scheduler.idleMachine) handedOver m := by
    refine (run_steps_iff.mpr hm).mono fun {m e m'} hstep => ?_
    rw [Steps] at hstep
    split_ifs at hstep with huncalled
    exact ⟨huncalled, exec_step hstep⟩
  have hend : m.called = [11] ∧ m.executing = some 10 := by
    cases hm
    exact ⟨rfl, rfl⟩
  exact ⟨m, (run_returns_iff Scheduler.idleMachine_booted).mpr hrun, hend⟩

/-- The thread makes a system call, and the next tick returns to it. -/
theorem afterCall_not_returns :
    ∃ m m', Run Step (boot Scheduler.idleMachine) (firstTick ++ [Event.syscall 1]) m ∧
      m.Step (.tick afterCall (some 10)) m' ∧ ¬m.Returns 0 (.tick afterCall (some 10)) := by
  obtain ⟨m, hm⟩ : ∃ m,
    (firstTick ++ [Event.syscall 1]).foldlM (exec 4) (boot Scheduler.idleMachine) = some m := ⟨_, rfl⟩
  obtain ⟨m', hm'⟩ : ∃ m', m.exec 4 (.tick afterCall (some 10)) = some m' := by
    cases hm
    exact ⟨_, rfl⟩
  have hexecuting : m.executing = some 10 := by
    cases hm
    rfl
  refine ⟨m, m', (run_steps_iff.mpr hm).mono exec_step, exec_step hm', fun hreturns => ?_⟩
  have hframe : m.frame afterCall (some 10) = afterCall := frame_some.trans (if_pos hexecuting)
  rw [Returns, hframe] at hreturns
  exact not_loads_sysret hreturns

end Machine

end LimineOS
