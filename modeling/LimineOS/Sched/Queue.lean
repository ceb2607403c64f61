import LimineOS.Sched.Scheduler
import LimineOS.Lib.LinkedList

/-!
# The task queue is a list with a cursor

`QueueOk s id L` says that the queue of processor `id` is the linked list `L`
with its cursor on no node or on one of them. `enqueue` puts a fresh thread at
the end (`enqueue_ok`); `getNextThread` moves the cursor along the round to the
next thread that can run (`getNextThread_ok`, `getNextThread_cases`).
-/

namespace LimineOS

open LinkedList

namespace Scheduler

section
variable {s s' : Scheduler} {id fuel : Nat} {t c x : ThreadPtr} {L N rest round : List ThreadPtr}
  {f g : TaskQueue → TaskQueue} {k : Thread → Thread}

@[simp] theorem modifyQueue_threads : (s.modifyQueue id f).threads = s.threads := rfl

@[simp] theorem queue_modifyQueue : (s.modifyQueue id f).queue id = f (s.queue id) := by
  simp [queue, modifyQueue]

theorem queue_modifyQueue_of_ne {j : Nat} (h : j ≠ id) : (s.modifyQueue id f).queue j = s.queue j := by
  simp [queue, modifyQueue, h]

theorem modifyQueue_processorId (j : Nat) :
    ((s.modifyQueue id f).cpus j).processorId = (s.cpus j).processorId := by
  rcases eq_or_ne j id with rfl | h
  · simp [modifyQueue]
  · simp [modifyQueue, h]

@[simp] theorem modifyQueue_modifyQueue :
    (s.modifyQueue id f).modifyQueue id g = s.modifyQueue id (g ∘ f) := by
  simp [modifyQueue]

@[simp] theorem modifyThread_self : (s.modifyThread t k).threads t = k (s.threads t) :=
  Function.update_self ..

theorem modifyThread_of_ne (h : c ≠ t) : (s.modifyThread t k).threads c = s.threads c :=
  Function.update_of_ne h ..

structure QueueOk (s : Scheduler) (id : Nat) (L : List ThreadPtr) : Prop where
  linked : Linked (fun t => (s.threads t).next) (s.queue id).head L
  nodup : L.Nodup
  tail : (s.queue id).tail = L.getLast?
  count : (s.queue id).numThreads = count32 L.length
  current : ∀ c, (s.queue id).current = some c → c ∈ L

theorem QueueOk.congr (h : QueueOk s id L) (hqueue : s'.queue id = s.queue id)
    (hnext : ∀ t ∈ L, (s'.threads t).next = (s.threads t).next) : QueueOk s' id L := by
  obtain ⟨hlinked, hnodup, htail, hcount, hcurrent⟩ := h
  rw [← hqueue] at hlinked htail hcount hcurrent
  exact ⟨hlinked.congr hnext, hnodup, htail, hcount, hcurrent⟩

def setCurrent (s : Scheduler) (id : Nat) (t : ThreadPtr) : Scheduler :=
  s.modifyQueue id fun queue => { queue with current := some t }

@[simp] theorem setCurrent_threads : (s.setCurrent id t).threads = s.threads := rfl

@[simp] theorem setCurrent_current : ((s.setCurrent id t).queue id).current = some t := by
  rw [setCurrent, queue_modifyQueue]

theorem setCurrent_processorId (j : Nat) :
    ((s.setCurrent id t).cpus j).processorId = (s.cpus j).processorId := by
  rw [setCurrent, modifyQueue_processorId]

@[simp] theorem setCurrent_numThreads :
    ((s.setCurrent id t).queue id).numThreads = (s.queue id).numThreads := by
  rw [setCurrent, queue_modifyQueue]

@[simp] theorem setCurrent_setCurrent : (s.setCurrent id c).setCurrent id t = s.setCurrent id t := by
  rw [setCurrent, setCurrent, modifyQueue_modifyQueue]
  rfl

theorem QueueOk.setCurrent (h : QueueOk s id L) (ht : t ∈ L) : QueueOk (s.setCurrent id t) id L := by
  refine ⟨?_, h.nodup, ?_, ?_, ?_⟩ <;> rw [Scheduler.setCurrent, queue_modifyQueue]
  · exact h.linked
  · exact h.tail
  · exact h.count
  · simp only [Option.some.injEq, forall_eq']
    exact ht

-- ---------------------------------------------------------------------------
-- Adding a thread
-- ---------------------------------------------------------------------------

theorem enqueue_eq (s : Scheduler) (t : ThreadPtr) : ∃ threads, s.enqueue t =
    { s with threads, curPid := incr32 s.curPid }.modifyQueue s.curCpuCore (fun queue =>
      { queue with
        head := queue.head.or (some t)
        tail := some t
        numThreads := incr32 queue.numThreads }) ∧
    ∀ c, threads c = { s.threads c with
      pid := if c = t then s.curPid else (s.threads c).pid
      next := if (s.queue s.curCpuCore).tail = some c then some t else (s.threads c).next } := by
  unfold enqueue linkTail
  cases htail : ((s.setPid t).queue (s.setPid t).curCpuCore).tail with
  | none =>
    refine ⟨_, rfl, fun c => ?_⟩
    have htail' : (s.queue s.curCpuCore).tail = none := htail
    rcases eq_or_ne c t with rfl | hc
    · simp [modifyThread, htail']
    · simp [modifyThread, htail', hc]
  | some tail =>
    refine ⟨_, rfl, fun c => ?_⟩
    have htail' : (s.queue s.curCpuCore).tail = some tail := htail
    rcases eq_or_ne c tail with rfl | hc
    · rcases eq_or_ne c t with rfl | hct
      · simp [setPid, modifyThread, htail']
      · simp [setPid, modifyThread, htail', hct]
    · rcases eq_or_ne c t with rfl | hct
      · simp [setPid, modifyThread, htail', hc, hc.symm]
      · simp [setPid, modifyThread, htail', hc, hct, hc.symm]

theorem enqueue_processorId (s : Scheduler) (t : ThreadPtr) (id : Nat) :
    ((s.enqueue t).cpus id).processorId = (s.cpus id).processorId := by
  obtain ⟨threads, heq, -⟩ := enqueue_eq s t
  rw [heq, modifyQueue_processorId]

theorem enqueue_locked (s : Scheduler) (t : ThreadPtr) :
    (enqueue { s with schedMutex := true } t).unlock = (s.enqueue t).unlock := by
  have hlink : ∀ s : Scheduler,
      linkTail { s with schedMutex := true } t = { s.linkTail t with schedMutex := true } := by
    intro s
    unfold linkTail
    simp only [queue]
    split <;> rfl
  have hpid : setPid { s with schedMutex := true } t = { s.setPid t with schedMutex := true } := rfl
  rw [enqueue, hpid, hlink]
  rfl

theorem addThread_tail (s : Scheduler) (t : ThreadPtr) :
    ((s.addThread t).queue s.curCpuCore).tail = some t := by
  obtain ⟨threads, heq, -⟩ := enqueue_eq s t
  have htail : ((s.enqueue t).queue s.curCpuCore).tail = some t := by rw [heq, queue_modifyQueue]
  exact htail

theorem addThread_rootTable (s : Scheduler) (t c : ThreadPtr) :
    ((s.addThread t).threads c).rootTable = (s.threads c).rootTable := by
  obtain ⟨threads, heq, hthreads⟩ := enqueue_eq s t
  have hroot : ((s.enqueue t).threads c).rootTable = (s.threads c).rootTable := by
    have hc := congrArg Thread.rootTable (hthreads c)
    rw [heq]
    exact hc
  exact hroot

theorem enqueue_ok (h : QueueOk s s.curCpuCore L) (ht : t ∉ L) (hnext : (s.threads t).next = none) :
    QueueOk (s.enqueue t) s.curCpuCore (L ++ [t]) := by
  obtain ⟨threads, heq, hthreads⟩ := enqueue_eq s t
  have hqueue : (s.enqueue t).queue s.curCpuCore =
      { s.queue s.curCpuCore with
        head := (s.queue s.curCpuCore).head.or (some t)
        tail := some t
        numThreads := incr32 (s.queue s.curCpuCore).numThreads } := by
    rw [heq, queue_modifyQueue]
  have hlinks : ∀ c, ((s.enqueue t).threads c).next =
      if L.getLast? = some c then some t else (s.threads c).next := by
    intro c
    simp only [heq, ← h.tail, modifyQueue_threads, hthreads c]
  refine ⟨?_, List.nodup_append.mpr ⟨h.nodup, List.nodup_singleton t, ?_⟩, ?_, ?_, ?_⟩
  · rw [hqueue]
    simp only [h.linked.head]
    rcases List.eq_nil_or_concat L with rfl | ⟨l, last, rfl⟩
    · have : ((s.enqueue t).threads t).next = none := by rw [hlinks t, if_neg (by simp), hnext]
      exact ⟨rfl, this⟩
    · rw [List.concat_eq_append] at *
      have hlast : last ∉ l :=
        fun hmem => List.disjoint_of_nodup_append h.nodup hmem (List.mem_singleton_self _)
      have hhead : (l ++ [last]).head?.or (some t) = (s.queue s.curCpuCore).head := by
        rw [h.linked.head]
        cases l <;> rfl
      rw [hhead]
      refine h.linked.snoc ht hlast ?_ ?_ fun c hc => ?_
      · rw [hlinks last, if_pos (by simp)]
      · rw [hlinks t, if_neg ?_, hnext]
        rw [List.getLast?_append, List.getLast?_singleton, Option.some_or]
        rintro ⟨⟩
        simp at ht
      · rw [hlinks c, if_neg ?_]
        rw [List.getLast?_append, List.getLast?_singleton, Option.some_or]
        rintro ⟨⟩
        exact hlast hc
  · rintro a ha b hb rfl
    exact ht (List.mem_singleton.mp hb ▸ ha)
  · simp [hqueue]
  · rw [hqueue, List.length_append, List.length_singleton, ← incr32_count32, ← h.count]
  · intro c hc
    rw [hqueue] at hc
    exact List.mem_append_left _ (h.current c hc)

-- ---------------------------------------------------------------------------
-- The next thread
-- ---------------------------------------------------------------------------

/-- The cursor, which stands before the first move on the head, has `round`
before it. -/
def Facing (s : Scheduler) (id : Nat) (L round : List ThreadPtr) : Prop :=
  ∃ c, (s.queue id).current.or (s.queue id).head = some c ∧ RoundAt L c round

theorem facing_setCurrent (hr : RoundAt L t round) : Facing (s.setCurrent id t) id L round :=
  ⟨t, by rw [setCurrent_current]; rfl, hr⟩

theorem QueueOk.facing (h : QueueOk s id L) (hne : L ≠ []) : ∃ round, Facing s id L round := by
  cases hc : (s.queue id).current with
  | some c =>
    obtain ⟨round, hr⟩ := exists_roundAt (h.current c hc)
    exact ⟨round, c, by rw [hc]; rfl, hr⟩
  | none =>
    obtain ⟨a, l, rfl⟩ := List.exists_cons_of_ne_nil hne
    obtain ⟨round, hr⟩ := exists_roundAt (List.mem_cons_self (a := a) (l := l))
    exact ⟨round, a, by rw [hc, h.linked.head]; rfl, hr⟩

theorem getNextThread_move (h : QueueOk s id L) (hcount : (s.queue id).numThreads ≠ 0)
    (hf : Facing s id L (x :: rest)) (fuel : Nat) :
    RoundAt L x (rest ++ [x]) ∧ getNextThread (fuel + 1) s id =
      if (s.threads x).canRun then some (some x, s.setCurrent id x)
        else getNextThread fuel (s.setCurrent id x) id := by
  obtain ⟨c, hc, hr⟩ := hf
  obtain ⟨y, ys, heq, hnext, hmove⟩ := hr.move h.linked
  obtain ⟨rfl, rfl⟩ := List.cons.inj heq
  refine ⟨hmove, ?_⟩
  rw [getNextThread]
  simp only [hcount, hc, hnext, ↓reduceIte, Option.bind_eq_bind, Option.bind_some, modifyQueue_threads]
  rfl

theorem getNextThread_ok (h : QueueOk s id L) (hcount : (s.queue id).numThreads ≠ 0)
    (hf : Facing s id L (N ++ t :: rest))
    (hN : ∀ c ∈ N, (s.threads c).canRun = false) (ht : (s.threads t).canRun = true)
    (hfuel : N.length < fuel) :
    getNextThread fuel s id = some (some t, s.setCurrent id t) ∧ RoundAt L t (rest ++ N ++ [t]) := by
  obtain ⟨fuel, rfl⟩ : ∃ k, fuel = k + 1 := ⟨fuel - 1, by omega⟩
  induction N generalizing s fuel rest with
  | nil =>
    obtain ⟨hr, hstep⟩ := getNextThread_move h hcount hf fuel
    rw [hstep, if_pos ht, List.append_nil]
    exact ⟨rfl, hr⟩
  | cons n N ih =>
    obtain ⟨hr, hstep⟩ := getNextThread_move h hcount hf fuel
    have hn : (s.threads n).canRun = false := hN n (by simp)
    rw [hstep, hn, if_neg (by decide)]
    rw [List.length_cons] at hfuel
    obtain ⟨fuel, rfl⟩ : ∃ k, fuel = k + 1 := ⟨fuel - 1, by omega⟩
    have hnL : n ∈ L := hr.perm.subset (by simp)
    have hf' : Facing (s.setCurrent id n) id L (N ++ t :: (rest ++ [n])) :=
      facing_setCurrent (by simpa using hr)
    obtain ⟨hnext, hround⟩ :=
      ih (h.setCurrent hnL) (by rwa [setCurrent_numThreads]) hf' (fun c hc => hN c (by simp [hc]))
        ht fuel (by omega)
    rw [hnext, setCurrent_setCurrent]
    exact ⟨rfl, by simpa using hround⟩

theorem getNextThread_cases {r : Option ThreadPtr} (h : QueueOk s id L)
    (hc : getNextThread fuel s id = some (r, s')) :
    (r = none ∧ (s.queue id).numThreads = 0 ∧ s' = s) ∨
      ∃ t ∈ L, r = some t ∧ (s.threads t).canRun = true ∧ s' = s.setCurrent id t := by
  induction fuel generalizing s with
  | zero => simp [getNextThread] at hc
  | succ fuel ih =>
    rcases eq_or_ne (s.queue id).numThreads 0 with hcount | hcount
    · simp only [getNextThread, hcount, ↓reduceIte, Option.some.injEq, Prod.mk.injEq] at hc
      obtain ⟨rfl, rfl⟩ := hc
      exact .inl ⟨rfl, hcount, rfl⟩
    · have hne : L ≠ [] := by
        rintro rfl
        exact hcount h.count
      obtain ⟨round, hf⟩ := h.facing hne
      cases round with
      | nil =>
        obtain ⟨c, -, A, B, -, hnil⟩ := hf
        simp at hnil
      | cons x rest =>
        obtain ⟨hr, hstep⟩ := getNextThread_move h hcount hf fuel
        have hx : x ∈ L := hr.perm.subset (by simp)
        rw [hstep] at hc
        split at hc
        · rename_i hrun
          simp only [Option.some.injEq, Prod.mk.injEq] at hc
          obtain ⟨rfl, rfl⟩ := hc
          exact .inr ⟨x, hx, rfl, hrun, rfl⟩
        · rcases ih (h.setCurrent hx) hc with ⟨-, hzero, -⟩ | ⟨t, ht, hrt, hrun, hs⟩
          · exact absurd (by rwa [setCurrent_numThreads] at hzero) hcount
          · exact .inr ⟨t, ht, hrt, hrun, by rw [hs, setCurrent_setCurrent]⟩

def nextThreads (fuel : Nat) : Nat → Scheduler → Nat → Option (List (Option ThreadPtr))
  | 0, _, _ => some []
  | count + 1, s, id => do
    let (t, s) ← getNextThread fuel s id
    let ts ← nextThreads fuel count s id
    some (t :: ts)

/-- Calls in a row return the threads of the round that can run, in order, as
long as the round lasts. -/
theorem nextThreads_ok {count : Nat} (h : QueueOk s id L) (hnum : (s.queue id).numThreads ≠ 0)
    (hf : Facing s id L round) (hfuel : L.length ≤ fuel)
    (hcount : count ≤ (round.filter fun t => (s.threads t).canRun).length) :
    nextThreads fuel count s id =
      some (((round.filter fun t => (s.threads t).canRun).take count).map some) := by
  induction count generalizing s round with
  | zero => simp [nextThreads]
  | succ count ih =>
    obtain ⟨c, hc, hr⟩ := hf
    cases hsplit : round.filter fun t => (s.threads t).canRun with
    | nil => simp [hsplit] at hcount
    | cons t ts =>
      obtain ⟨N, rest, rfl, hN, ht, rfl⟩ := List.filter_eq_cons_iff.mp hsplit
      have hlen := hr.perm.length_eq
      simp only [List.length_append, List.length_cons] at hlen
      obtain ⟨hnext, hround⟩ :=
        getNextThread_ok h hnum ⟨c, hc, hr⟩ (fun c hc => by simpa using hN c hc) ht
        (by omega : N.length < fuel)
      have hfilter : (rest ++ N ++ [t]).filter (fun c => ((s.setCurrent id t).threads c).canRun) =
          rest.filter (fun c => (s.threads c).canRun) ++ [t] := by
        rw [List.filter_append, List.filter_append, setCurrent_threads, List.filter_eq_nil_iff.mpr hN,
          List.append_nil, List.filter_singleton, ht, cond_true]
      rw [hsplit, List.length_cons] at hcount
      have htL : t ∈ L := hr.perm.subset (by simp)
      have hrest := ih (h.setCurrent htL) (by rwa [setCurrent_numThreads]) (facing_setCurrent hround)
        (by rw [hfilter, List.length_append]; omega)
      rw [hfilter, List.take_append_of_le_length (by omega)] at hrest
      simp only [nextThreads, hnext, hrest, Option.bind_eq_bind, Option.bind_some,
        List.take_succ_cons, List.map_cons]

end

end Scheduler

end LimineOS
