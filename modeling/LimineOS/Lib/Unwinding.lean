import LimineOS.Lib.Transition

/-!
# Two runs of one machine

A machine answers calls and moves on. One party makes the calls in `A`, and
`observe` lists the answers it gets in a run. A run is independent of the other
calls when the party gets the same answers once these are removed.

A view relates states in which the party gets the same answers, now and after
any calls of its own. A run in which the other calls keep the view is
independent (`View.run_quiet`); when the party can tell states apart that its
view does not relate, no other run is (`View.independent_iff`).
-/

namespace Unwinding

open Transition

universe u v w
variable {σ : Type u} {ι : Type v} {ρ : Type w}

def next (call : σ → ι → ρ × σ) (s : σ) (c : ι) : Option σ := some (call s c).2

section
variable (call : σ → ι → ρ × σ) (A : ι → Prop) [DecidablePred A]

def observe : σ → List ι → List ρ
  | _, [] => []
  | s, c :: cs => if A c then (call s c).1 :: observe (call s c).2 cs else observe (call s c).2 cs

/-- The answers are those of the run without the calls of others. -/
def Independent (s : σ) (cs : List ι) : Prop := observe call A s cs = observe call A s (cs.filter A)

/-- Related states give the party the same answers, and stay related as it
takes its steps. -/
structure View (R : σ → σ → Prop) : Prop where
  equivalence : Equivalence R
  output : ∀ {s t c}, R s t → A c → (call s c).1 = (call t c).1
  step : ∀ {s t c}, R s t → A c → R (call s c).2 (call t c).2

def Quiet (R : σ → σ → Prop) (s : σ) (c : ι) : Prop := ¬A c → R s (call s c).2

end

variable {call : σ → ι → ρ × σ} {A : ι → Prop} [DecidablePred A] {R : σ → σ → Prop}
  {Allowed : σ → ι → Prop}
  {s t u : σ} {cs : List ι} {c : ι}

theorem observe_snoc (h : Run (Steps (next call)) s cs t) :
    observe call A s (cs ++ [c]) = observe call A s cs ++ if A c then [(call t c).1] else [] := by
  induction cs generalizing s with
  | nil =>
    obtain rfl := run_nil_iff.mp h
    rw [List.nil_append, observe, observe, observe, List.nil_append]
  | cons c' cs ih =>
    obtain ⟨s', hs', hrest⟩ := run_cons_iff.mp h
    obtain rfl := Option.some.inj hs'
    rw [List.cons_append, observe, observe, ih hrest]
    split_ifs <;> rfl

/-- A quiet run and the run without the other calls give the same answers and
end in related states. -/
theorem View.run_quiet (V : View call A R)
    (h : Run (Guarded (Quiet call A R) (Steps (next call))) s cs t)
    {s' : σ} (hs : R s s') :
    ∃ t', Run (Steps (next call)) s' (cs.filter A) t' ∧ R t t' ∧
      observe call A s cs = observe call A s' (cs.filter A) := by
  induction h with
  | nil => exact ⟨s', .nil, hs, rfl⟩
  | @snoc cs t c u h hstep ih =>
    obtain ⟨t', hrun, hR, hobs⟩ := ih
    obtain ⟨hquiet, hnext⟩ := hstep
    obtain rfl := Option.some.inj hnext
    by_cases hc : A c
    · have hfilter : (cs ++ [c]).filter A = cs.filter A ++ [c] := by simp [hc]
      rw [hfilter, observe_snoc h.unguard, observe_snoc hrun, if_pos hc, if_pos hc, hobs,
        V.output hR hc]
      exact ⟨(call t' c).2, hrun.snoc rfl, V.step hR hc, rfl⟩
    · have hfilter : (cs ++ [c]).filter A = cs.filter A := by simp [hc]
      rw [hfilter, observe_snoc h.unguard, if_neg hc, List.append_nil, hobs]
      exact ⟨t', hrun, V.equivalence.trans (V.equivalence.symm (hquiet hc)) hR, rfl⟩

/-- Within runs whose other calls can be noticed where they leave the view, the
party's answers are independent of the others throughout a run exactly when the
run is quiet. -/
theorem View.independent_iff (V : View call A R)
    (hnotice : ∀ {s c}, Allowed s c → ¬A c → ¬R s (call s c).2 →
      ∃ op, A op ∧ (call s op).1 ≠ (call (call s c).2 op).1)
    (h : Run (Guarded Allowed (Steps (next call))) s cs t) :
    (∀ past rest op, cs = past ++ rest → A op → Independent call A s (past ++ [op])) ↔
      Run (Guarded (Quiet call A R) (Steps (next call))) s cs t := by
  constructor
  · intro hind
    induction h with
    | nil => exact .nil
    | @snoc cs t c u h hstep ih =>
      have hquiet := ih fun past rest op he =>
        hind past (rest ++ [c]) op (by rw [he, List.append_assoc])
      refine .snoc hquiet ⟨fun hc => ?_, hstep.2⟩
      by_contra hR
      obtain ⟨op, hop, hne⟩ := hnotice hstep.1 hc hR
      -- the run without the others' calls answers `op` as the state before `c` does
      obtain ⟨t', hrun, hRt, hobs⟩ := V.run_quiet hquiet (V.equivalence.refl s)
      have hafter := hind (cs ++ [c]) [] op (List.append_nil _).symm hop
      have hfilter : (cs ++ [c] ++ [op]).filter A = cs.filter A ++ [op] := by
        simp [hc, hop]
      rw [Independent, hfilter, observe_snoc hrun,
        observe_snoc (h.unguard.snoc (u := (call t c).2) rfl), observe_snoc h.unguard, if_pos hop,
        if_neg hc, if_pos hop, List.append_nil, hobs] at hafter
      have heq := List.cons.inj (List.append_cancel_left hafter)
      exact hne ((V.output hRt hop).trans heq.1.symm)
  · rintro hquiet past rest op rfl hop
    obtain ⟨mid, hmid, -⟩ := run_append_iff.mp hquiet
    have hnext : Run (Guarded (Quiet call A R) (Steps (next call))) s (past ++ [op]) (call mid op).2 :=
      hmid.snoc ⟨fun hnot => absurd hop hnot, rfl⟩
    obtain ⟨-, -, -, hobs⟩ := V.run_quiet hnext (V.equivalence.refl s)
    exact hobs

end Unwinding
