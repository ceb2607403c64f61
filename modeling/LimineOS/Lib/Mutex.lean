import LimineOS.Lib.Transition
import Mathlib.Logic.Function.Basic

/-!
# Programs that share data under a lock

Any number of contexts execute operations, step by step and interleaved. A step
is disciplined if it leaves the protected data and the release of the lock to
the context that took the lock last. A run is disciplined exactly when steps
are only taken in operations that begin with the lock (`guarded_iff`), and then
the operations that have finished have run one after the other (`Sound`).
-/

namespace Mutex

open Transition

inductive Kind
  | acquire
  | release
  | access
  | other
  deriving DecidableEq

/-- The steps of operations. `next` gives the control point that follows, which
is `none` at the end, and the data; it is `none` while the step is not
possible. -/
structure Program (σ Op C : Type) where
  start : Op → C
  kind : C → Kind
  next : Op → C → σ → Option (Option C × σ)

inductive Event (ι Op : Type)
  | start (i : ι) (op : Op)
  | step (i : ι)
  deriving DecidableEq

/-- No step depends on `holder`, the context that has taken the lock, or on
`finished`, the operations that have ended, in order. -/
structure State (ι σ Op C : Type) where
  data : σ
  running : ι → Option (Op × C) := fun _ => none
  holder : Option ι := none
  finished : List Op := []

section
variable {ι σ Op C : Type}

def Kind.holder (kind : Kind) (i : ι) (holder : Option ι) : Option ι :=
  match kind with
  | .acquire => some i
  | .release => none
  | .access | .other => holder

def Program.Disciplined (P : Program σ Op C) (s : State ι σ Op C) : Event ι Op → Prop
  | .start _ _ => True
  | .step i =>
    ∀ op c, s.running i = some (op, c) → P.kind c = .access ∨ P.kind c = .release → s.holder = some i

def Program.LocksFirst (P : Program σ Op C) (s : State ι σ Op C) : Event ι Op → Prop
  | .start _ _ => True
  | .step i => ∀ op c, s.running i = some (op, c) → P.kind (P.start op) = .acquire

/-- The lock is a cell of the data. An operation takes it at the beginning if at
all, and ends with its release. -/
structure Program.Lawful (P : Program σ Op C) (locked : σ → Bool) : Prop where
  acquire : ∀ {op c d c' d'}, P.next op c d = some (c', d') → P.kind c = .acquire →
    locked d = false ∧ locked d' = true
  release : ∀ {op c d c' d'}, P.next op c d = some (c', d') → P.kind c = .release →
    locked d' = false ∧ c' = none
  keep : ∀ {op c d c' d'}, P.next op c d = some (c', d') → P.kind c ≠ .acquire → P.kind c ≠ .release →
    locked d' = locked d
  inner : ∀ {op c d c' d'}, P.next op c d = some (c', d') → P.kind c ≠ .release →
    ∃ c₁, c' = some c₁ ∧ P.kind c₁ ≠ .acquire
  first : ∀ op, P.kind (P.start op) ≠ .other

inductive Program.Completes (P : Program σ Op C) (op : Op) : C → σ → σ → Prop
  | last {c d d'} : P.next op c d = some (none, d') → Completes P op c d d'
  | step {c d c₁ d₁ d'} : P.next op c d = some (some c₁, d₁) → Completes P op c₁ d₁ d' →
      Completes P op c d d'

inductive Program.Reaches (P : Program σ Op C) (op : Op) (c₀ : C) (d₀ : σ) : C → σ → Prop
  | refl : Reaches P op c₀ d₀ c₀ d₀
  | snoc {c d c₁ d₁} : Reaches P op c₀ d₀ c d → P.next op c d = some (some c₁, d₁) →
      Reaches P op c₀ d₀ c₁ d₁

def Program.Atomic (P : Program σ Op C) (d : σ) (op : Op) (d' : σ) : Prop :=
  P.Completes op (P.start op) d d'

def Program.Inside (P : Program σ Op C) (s : State ι σ Op C) (i : ι) : Prop :=
  ∃ op c, s.running i = some (op, c) ∧ P.kind (P.start op) = .acquire ∧ P.kind c ≠ .acquire

variable {P : Program σ Op C} {locked : σ → Bool} {s s' : State ι σ Op C} {es : List (Event ι Op)}
  {e : Event ι Op}
  {op : Op} {c c₀ : C} {d d' d₀ : σ} {i j : ι}

theorem Program.Reaches.completes (h : P.Reaches op c₀ d₀ c d) (hc : P.Completes op c d d') :
    P.Completes op c₀ d₀ d' := by
  induction h with
  | refl => exact hc
  | snoc _ hnext ih => exact ih (.step hnext hc)

theorem Program.completes_of_next {c₁ : C} {d₁ : σ} (h : P.next op c d = some (some c₁, d₁)) :
    P.Completes op c d d' ↔ P.Completes op c₁ d₁ d' := by
  constructor
  · rintro (hlast | ⟨hstep, hrest⟩)
    · simp [h] at hlast
    · obtain ⟨rfl, rfl⟩ : c₁ = _ ∧ d₁ = _ := by simpa [h] using hstep
      exact hrest
  · exact .step h

theorem Program.completes_last (h : P.next op c d = some (none, d₀)) :
    P.Completes op c d d' ↔ d₀ = d' := by
  constructor
  · rintro (hlast | ⟨hstep, -⟩)
    · simpa [h] using hlast
    · simp [h] at hstep
  · rintro rfl
    exact .last h

theorem Kind.holder_of_ne {kind : Kind} {holder : Option ι} (h : kind.holder j holder = some i)
    (hij : i ≠ j) :
    holder = some i := by
  cases kind with
  | acquire => exact absurd (Option.some.inj h).symm hij
  | release => exact absurd h (by simp [Kind.holder])
  | access => exact h
  | other => exact h

theorem Kind.holder_keep {kind : Kind} {holder : Option ι} (hacq : kind ≠ .acquire)
    (hrel : kind ≠ .release) :
    kind.holder i holder = holder := by
  cases kind with
  | acquire => exact absurd rfl hacq
  | release => exact absurd rfl hrel
  | access => rfl
  | other => rfl

-- ---------------------------------------------------------------------------
-- What holds in a state
-- ---------------------------------------------------------------------------

structure HolderOk (P : Program σ Op C) (s : State ι σ Op C) : Prop where
  waits : ∀ i op c, s.running i = some (op, c) → P.kind c = .acquire → c = P.start op
  inside : ∀ i, s.holder = some i → P.Inside s i

/-- Who is inside holds the lock, and the data is where the operations that
have finished lead, one after the other, and then the holder's part of its
own. -/
structure Sound (P : Program σ Op C) (locked : σ → Bool) (d₀ : σ) (s : State ι σ Op C) : Prop where
  ok : HolderOk P s
  lock : locked s.data = s.holder.isSome
  holds : ∀ i, P.Inside s i → s.holder = some i
  serial : ∃ base, Run P.Atomic d₀ s.finished base ∧ (s.holder = none → s.data = base) ∧
    ∀ i op c, s.holder = some i → s.running i = some (op, c) → P.Reaches op (P.start op) base c s.data

theorem Sound.init (h : locked d₀ = false) : Sound P locked d₀ ({ data := d₀ } : State ι σ Op C) where
  ok := ⟨by simp, by simp⟩
  lock := h
  holds := by
    rintro i ⟨op, c, hrunning, -⟩
    simp at hrunning
  serial := ⟨d₀, .nil, fun _ => rfl, by simp⟩

theorem Sound.exclusive (h : Sound P locked d₀ s) (hi : P.Inside s i) (hj : P.Inside s j) : i = j :=
  Option.some.inj ((h.holds i hi).symm.trans (h.holds j hj))

theorem Sound.disciplined (h : Sound P locked d₀ s) (hfirst : P.LocksFirst s e) :
    P.Disciplined s e := by
  cases e with
  | start j op => trivial
  | step j =>
    intro op c hj hkind
    have hacq : P.kind c ≠ .acquire := by
      rintro hacq
      simp [hacq] at hkind
    exact h.holds j ⟨op, c, hj, hfirst op c hj, hacq⟩

structure Unstarted (P : Program σ Op C) (s : State ι σ Op C) : Prop where
  ok : HolderOk P s
  start : ∀ i op c, s.running i = some (op, c) → P.kind (P.start op) ≠ .acquire → c = P.start op

theorem Unstarted.locksFirst (hP : P.Lawful locked) (h : Unstarted P s) (hd : P.Disciplined s e) :
    P.LocksFirst s e := by
  cases e with
  | start j op => trivial
  | step j =>
    intro op c hj
    by_contra hne
    obtain rfl := h.start j op c hj hne
    have hkind : P.kind (P.start op) = .access ∨ P.kind (P.start op) = .release := by
      have hfirst := hP.first op
      cases hk : P.kind (P.start op) <;> simp_all
    obtain ⟨op', c, hrunning, hacq, -⟩ := h.ok.inside j (hd op _ hj hkind)
    rw [hj] at hrunning
    obtain ⟨rfl, -⟩ := Prod.mk.inj (Option.some.inj hrunning)
    exact hne hacq

-- ---------------------------------------------------------------------------
-- Steps
-- ---------------------------------------------------------------------------

variable [DecidableEq ι]

def Program.exec (P : Program σ Op C) (s : State ι σ Op C) : Event ι Op → Option (State ι σ Op C)
  | .start i op =>
    if (s.running i).isSome then none
    else some { s with running := Function.update s.running i (some (op, P.start op)) }
  | .step i => do
    let (op, c) ← s.running i
    let (c', data) ← P.next op c s.data
    some {
      data
      running := Function.update s.running i (c'.map fun c' => (op, c'))
      holder := (P.kind c).holder i s.holder
      finished := if c'.isNone then s.finished ++ [op] else s.finished }

theorem exec_start (h : P.exec s (.start i op) = some s') :
    s.running i = none ∧
      s' = { s with running := Function.update s.running i (some (op, P.start op)) } := by
  simp only [Program.exec] at h
  split_ifs at h with hsome
  exact ⟨by simpa using hsome, (Option.some.inj h).symm⟩

theorem exec_step (h : P.exec s (.step i) = some s') :
    ∃ op c c' data, s.running i = some (op, c) ∧ P.next op c s.data = some (c', data) ∧
      s' = {
        data
        running := Function.update s.running i (c'.map fun c' => (op, c'))
        holder := (P.kind c).holder i s.holder
        finished := if c'.isNone then s.finished ++ [op] else s.finished } := by
  simp only [Program.exec, Option.bind_eq_bind, Option.bind_eq_some_iff] at h
  obtain ⟨⟨op, c⟩, hrunning, ⟨c', data⟩, hnext, h⟩ := h
  exact ⟨op, c, c', data, hrunning, hnext, (Option.some.inj h).symm⟩

theorem HolderOk.step (hP : P.Lawful locked) (h : HolderOk P s) (hstep : P.exec s e = some s') :
    HolderOk P s' := by
  cases e with
  | start j op =>
    obtain ⟨hidle, rfl⟩ := exec_start hstep
    refine ⟨fun i op' c hrunning hc => ?_, fun i hi => ?_⟩
    · rcases eq_or_ne i j with rfl | hij
      · simp only [Function.update_self, Option.some.injEq, Prod.mk.injEq] at hrunning
        obtain ⟨rfl, rfl⟩ := hrunning
        rfl
      · exact h.waits i op' c (by simpa [hij] using hrunning) hc
    · obtain ⟨op', c, hrunning, hinside⟩ := h.inside i hi
      have hij : i ≠ j := by
        rintro rfl
        simp [hidle] at hrunning
      exact ⟨op', c, by simpa [hij] using hrunning, hinside⟩
  | step j =>
    obtain ⟨op, c, c', d, hj, hnext, rfl⟩ := exec_step hstep
    refine ⟨fun i op' c₁ hrunning hc => ?_, fun i hi => ?_⟩
    · rcases eq_or_ne i j with rfl | hij
      · -- a step never leads to an acquire
        simp only [Function.update_self, Option.map_eq_some_iff, Prod.mk.injEq] at hrunning
        obtain ⟨c₂, rfl, rfl, rfl⟩ := hrunning
        obtain ⟨c₃, heq, hne⟩ := hP.inner hnext fun hrel => by simpa using (hP.release hnext hrel).2
        obtain rfl := Option.some.inj heq
        exact absurd hc hne
      · exact h.waits i op' c₁ (by simpa [hij] using hrunning) hc
    · rcases eq_or_ne i j with rfl | hij
      · have hrel : P.kind c ≠ .release := by
          intro hrel
          simp [hrel, Kind.holder] at hi
        obtain ⟨c₁, rfl, hne⟩ := hP.inner hnext hrel
        refine ⟨op, c₁, by simp, ?_, hne⟩
        by_cases hacq : P.kind c = .acquire
        · rw [← h.waits i op c hj hacq, hacq]
        · have hholder : s.holder = some i := (Kind.holder_keep hacq hrel).symm.trans hi
          obtain ⟨op', c', hrunning, hfirst, -⟩ := h.inside i hholder
          rw [hj] at hrunning
          obtain ⟨rfl, rfl⟩ := Prod.mk.inj (Option.some.inj hrunning)
          exact hfirst
      · obtain ⟨op', c₁, hrunning, hinside⟩ := h.inside i (Kind.holder_of_ne hi hij)
        exact ⟨op', c₁, by simpa [hij] using hrunning, hinside⟩

-- ---------------------------------------------------------------------------
-- Runs in which operations lock first
-- ---------------------------------------------------------------------------

theorem Program.Inside.of_ne {running : Option (Op × C)} {d : σ} {holder : Option ι}
    {finished : List Op} (hij : i ≠ j)
    (h : P.Inside { data := d, running := Function.update s.running j running, holder, finished }
      i) : P.Inside s i := by
  obtain ⟨op, c, hrunning, hinside⟩ := h
  exact ⟨op, c, by simpa [hij] using hrunning, hinside⟩

theorem exec_running (hj : s.running j = some (op, c)) (h : P.exec s (.step j) = some s') :
    ∃ c' data, P.next op c s.data = some (c', data) ∧
      s' = {
        data
        running := Function.update s.running j (c'.map fun c' => (op, c'))
        holder := (P.kind c).holder j s.holder
        finished := if c'.isNone then s.finished ++ [op] else s.finished } := by
  obtain ⟨op', c₁, c', data, hrunning, hnext, rfl⟩ := exec_step h
  rw [hj] at hrunning
  obtain ⟨rfl, rfl⟩ := Prod.mk.inj (Option.some.inj hrunning)
  exact ⟨c', data, hnext, rfl⟩

theorem Sound.start (hP : P.Lawful locked) (h : Sound P locked d₀ s)
    (hstep : P.exec s (.start j op) = some s') :
    Sound P locked d₀ s' := by
  have hok := h.ok.step hP hstep
  obtain ⟨base, hrun, hfree, hheld⟩ := h.serial
  obtain ⟨hidle, rfl⟩ := exec_start hstep
  refine ⟨hok, h.lock, fun i hi => ?_, base, hrun, hfree, fun i op' c hi hrunning => ?_⟩
  · rcases eq_or_ne i j with rfl | hij
    · obtain ⟨op', c, hrunning, hacq, hne⟩ := hi
      simp only [Function.update_self, Option.some.injEq, Prod.mk.injEq] at hrunning
      obtain ⟨rfl, rfl⟩ := hrunning
      exact absurd hacq hne
    · exact h.holds i (hi.of_ne hij)
  · have hij : i ≠ j := by
      rintro rfl
      obtain ⟨op'', c', hrunning', -⟩ := h.ok.inside i hi
      simp [hidle] at hrunning'
    exact hheld i op' c hi (by simpa [hij] using hrunning)

theorem Sound.acquire (hP : P.Lawful locked) (h : Sound P locked d₀ s) (hj : s.running j = some (op, c))
    (hacq : P.kind c = .acquire) (hstep : P.exec s (.step j) = some s') : Sound P locked d₀ s' := by
  have hok := h.ok.step hP hstep
  obtain ⟨base, hrun, hfree, hheld⟩ := h.serial
  obtain ⟨c', d, hnext, rfl⟩ := exec_running hj hstep
  obtain ⟨hunlocked, hlocked⟩ := hP.acquire hnext hacq
  have hnone : s.holder = none := by simpa [hunlocked] using h.lock
  obtain ⟨c₁, rfl, -⟩ := hP.inner hnext (by simp [hacq])
  obtain rfl := h.ok.waits j op c hj hacq
  refine ⟨hok, by simp [hlocked, hacq, Kind.holder], fun i hi => ?_, base, by simpa using hrun, ?_, ?_⟩
  · rcases eq_or_ne i j with rfl | hij
    · simp [hacq, Kind.holder]
    · exact absurd (h.holds i (hi.of_ne hij)) (by simp [hnone])
  · simp [hacq, Kind.holder]
  · intro i op' c hi hrunning
    obtain rfl : j = i := by simpa [hacq, Kind.holder] using hi
    simp only [Function.update_self, Option.map_some, Option.some.injEq, Prod.mk.injEq] at hrunning
    obtain ⟨rfl, rfl⟩ := hrunning
    rw [hfree hnone] at hnext
    exact .snoc .refl hnext

theorem Sound.release (hP : P.Lawful locked) (h : Sound P locked d₀ s) (hj : s.running j = some (op, c))
    (hholder : s.holder = some j) (hrel : P.kind c = .release) (hstep : P.exec s (.step j) = some s') :
    Sound P locked d₀ s' := by
  have hok := h.ok.step hP hstep
  obtain ⟨base, hrun, hfree, hheld⟩ := h.serial
  obtain ⟨c', d, hnext, rfl⟩ := exec_running hj hstep
  obtain ⟨hunlocked, rfl⟩ := hP.release hnext hrel
  refine ⟨hok, by simp [hunlocked, hrel, Kind.holder], fun i hi => ?_, d, ?_, fun _ => rfl, ?_⟩
  · rcases eq_or_ne i j with rfl | hij
    · obtain ⟨op', c', hrunning, -⟩ := hi
      simp at hrunning
    · have hi' := h.holds i (hi.of_ne hij)
      exact absurd (Option.some.inj (hi'.symm.trans hholder)) hij
  · simpa using Run.snoc hrun ((hheld j op c hholder hj).completes (.last hnext))
  · simp [hrel, Kind.holder]

theorem Sound.inner (hP : P.Lawful locked) (h : Sound P locked d₀ s) (hj : s.running j = some (op, c))
    (hholder : s.holder = some j) (hacq : P.kind c ≠ .acquire) (hrel : P.kind c ≠ .release)
    (hstep : P.exec s (.step j) = some s') : Sound P locked d₀ s' := by
  have hok := h.ok.step hP hstep
  obtain ⟨base, hrun, hfree, hheld⟩ := h.serial
  obtain ⟨c', d, hnext, rfl⟩ := exec_running hj hstep
  obtain ⟨c₁, rfl, -⟩ := hP.inner hnext hrel
  have hkeep : (P.kind c).holder j s.holder = some j := (Kind.holder_keep hacq hrel).trans hholder
  refine ⟨hok, ?_, fun i hi => ?_, base, by simpa using hrun, by simp [hkeep], ?_⟩
  · show locked d = ((P.kind c).holder j s.holder).isSome
    rw [hP.keep hnext hacq hrel, h.lock, hkeep, hholder]
  · rcases eq_or_ne i j with rfl | hij
    · exact hkeep
    · have hi' := h.holds i (hi.of_ne hij)
      exact absurd (Option.some.inj (hi'.symm.trans hholder)) hij
  · intro i op' c' hi hrunning
    obtain rfl : j = i := by simpa [hkeep] using hi
    simp only [Function.update_self, Option.map_some, Option.some.injEq, Prod.mk.injEq] at hrunning
    obtain ⟨rfl, rfl⟩ := hrunning
    exact .snoc (hheld j op c hholder hj) hnext

theorem Sound.step (hP : P.Lawful locked) (h : Sound P locked d₀ s) (hfirst : P.LocksFirst s e)
    (hstep : P.exec s e = some s') : Sound P locked d₀ s' := by
  cases e with
  | start j op => exact h.start hP hstep
  | step j =>
    obtain ⟨op, c, -, -, hj, -⟩ := exec_step hstep
    by_cases hacq : P.kind c = .acquire
    · exact h.acquire hP hj hacq hstep
    · have hholder : s.holder = some j := h.holds j ⟨op, c, hj, hfirst op c hj, hacq⟩
      by_cases hrel : P.kind c = .release
      · exact h.release hP hj hholder hrel hstep
      · exact h.inner hP hj hholder hacq hrel hstep

theorem Unstarted.step (hP : P.Lawful locked) (h : Unstarted P s) (hfirst : P.LocksFirst s e)
    (hstep : P.exec s e = some s') : Unstarted P s' := by
  refine ⟨h.ok.step hP hstep, fun i op' c' hrunning hne => ?_⟩
  cases e with
  | start j op =>
    obtain ⟨-, rfl⟩ := exec_start hstep
    rcases eq_or_ne i j with rfl | hij
    · simp only [Function.update_self, Option.some.injEq, Prod.mk.injEq] at hrunning
      obtain ⟨rfl, rfl⟩ := hrunning
      rfl
    · exact h.start i op' c' (by simpa [hij] using hrunning) hne
  | step j =>
    obtain ⟨op, c, c₁, d, hj, -, rfl⟩ := exec_step hstep
    rcases eq_or_ne i j with rfl | hij
    · simp only [Function.update_self, Option.map_eq_some_iff, Prod.mk.injEq] at hrunning
      obtain ⟨-, -, rfl, -⟩ := hrunning
      exact absurd (hfirst op c hj) hne
    · exact h.start i op' c' (by simpa [hij] using hrunning) hne

/-- A run is disciplined exactly when its steps are all in operations that lock
first, and the states it leads to are sound. -/
theorem guarded_iff (hP : P.Lawful locked) (h : locked d₀ = false) :
    Run (Guarded P.Disciplined (Steps P.exec)) { data := d₀ } es s ↔
      Run (Guarded P.LocksFirst (Steps P.exec)) { data := d₀ } es s := by
  constructor
  · intro hrun
    have hinit : Unstarted P ({ data := d₀ } : State ι σ Op C) := ⟨⟨by simp, by simp⟩, by simp⟩
    exact (hrun.reguard (I := Unstarted P) hinit fun hI hd hs =>
      ⟨hI.locksFirst hP hd, hI.step hP (hI.locksFirst hP hd) hs⟩).1
  · intro hrun
    exact (hrun.reguard (I := Sound P locked d₀) (.init h) fun hI hfirst hs =>
      ⟨hI.disciplined hfirst, hI.step hP hfirst hs⟩).1

theorem run_sound (hP : P.Lawful locked) (h : locked d₀ = false)
    (hrun : Run (Guarded P.LocksFirst (Steps P.exec)) { data := d₀ } es s) : Sound P locked d₀ s :=
  (hrun.reguard (I := Sound P locked d₀) (.init h) fun hI hfirst hs => ⟨hfirst, hI.step hP hfirst hs⟩).2

theorem run_finished (hrun : Run (Guarded P.LocksFirst (Steps P.exec)) { data := d₀ } es s) :
    ∀ op ∈ s.finished, P.kind (P.start op) = .acquire := by
  refine hrun.invariant (I := fun s => ∀ op ∈ s.finished, P.kind (P.start op) = .acquire) (by simp) ?_
  rintro s e s' ih ⟨hfirst, hstep⟩ op hop
  cases e with
  | start i op' =>
    obtain ⟨-, rfl⟩ := exec_start hstep
    exact ih op hop
  | step i =>
    obtain ⟨op', c, c', d, hrunning, -, rfl⟩ := exec_step hstep
    simp only at hop
    split_ifs at hop with hend
    · rcases List.mem_append.mp hop with hop | hop
      · exact ih op hop
      · obtain rfl := List.mem_singleton.mp hop
        exact hfirst op c hrunning
    · exact ih op hop

end

end Mutex
