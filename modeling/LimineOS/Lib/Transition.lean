import Mathlib.Data.List.Induction

/-!
# Finite runs of a labelled transition relation

A run is built one step at a time at its end, so the label list grows on the
right and an induction over a run sees the last step taken. `Run.history`
carries a property of the labels so far together with the state reached;
`Run.invariant` is the case that forgets the labels.

A run whose steps all meet a condition is a run of the restricted relation
`Guarded`, and every law about runs applies to it.
-/

namespace Transition

universe u v
variable {σ : Type u} {ε : Type v}

inductive Run (Step : σ → ε → σ → Prop) (s : σ) : List ε → σ → Prop
  | nil : Run Step s [] s
  | snoc {es t e u} : Run Step s es t → Step t e u → Run Step s (es ++ [e]) u

def Steps (step : σ → ε → Option σ) (s : σ) (e : ε) (t : σ) : Prop := step s e = some t

/-- The steps that meet a condition on the state before them. -/
def Guarded (C : σ → ε → Prop) (Step : σ → ε → σ → Prop) (s : σ) (e : ε) (t : σ) : Prop :=
  C s e ∧ Step s e t

variable {Step : σ → ε → σ → Prop} {s t u : σ} {es fs : List ε} {e : ε}

theorem Run.single (h : Step s e t) : Run Step s [e] t := .snoc .nil h

theorem Run.append (h : Run Step s es t) (h' : Run Step t fs u) : Run Step s (es ++ fs) u := by
  induction h' with
  | nil => simpa using h
  | @snoc fs t' e u' _ hstep ih =>
    rw [← List.append_assoc]
    exact .snoc ih hstep

theorem Run.cons (h : Step s e t) (h' : Run Step t es u) : Run Step s (e :: es) u :=
  (Run.single h).append h'

/-- A property of the labels so far and the state reached, kept by each step. -/
theorem Run.history {I : List ε → σ → Prop} (h : Run Step s es t) (h0 : I [] s)
    (hstep : ∀ {es t e u}, I es t → Step t e u → I (es ++ [e]) u) : I es t := by
  induction h with
  | nil => exact h0
  | snoc _ hs ih => exact hstep ih hs

theorem Run.invariant {I : σ → Prop} (h : Run Step s es t) (h0 : I s)
    (hstep : ∀ {t e u}, I t → Step t e u → I u) : I t :=
  h.history (I := fun _ => I) h0 hstep

theorem Run.mono {Step' : σ → ε → σ → Prop} (h : Run Step s es t)
    (hstep : ∀ {s e t}, Step s e t → Step' s e t) : Run Step' s es t := by
  induction h with
  | nil => exact .nil
  | snoc _ hs ih => exact .snoc ih (hstep hs)

theorem Run.unguard {C : σ → ε → Prop} (h : Run (Guarded C Step) s es t) : Run Step s es t :=
  h.mono And.right

/-- Steps that meet one condition meet another, as long as they keep an
invariant. -/
theorem Run.reguard {C D : σ → ε → Prop} {I : σ → Prop} (h : Run (Guarded C Step) s es t) (h0 : I s)
    (hstep : ∀ {t e u}, I t → C t e → Step t e u → D t e ∧ I u) :
    Run (Guarded D Step) s es t ∧ I t := by
  induction h with
  | nil => exact ⟨.nil, h0⟩
  | snoc _ hs ih =>
    obtain ⟨hrun, hI⟩ := ih
    obtain ⟨hD, hI'⟩ := hstep hI hs.1 hs.2
    exact ⟨.snoc hrun ⟨hD, hs.2⟩, hI'⟩

/-- Two conditions that agree wherever an invariant holds guard the same runs. -/
theorem run_guarded_congr {C D : σ → ε → Prop} {I : σ → Prop} (h0 : I s)
    (hstep : ∀ {t e u}, I t → Step t e u → I u) (hiff : ∀ {t e u}, I t → Step t e u → (C t e ↔ D t e)) :
    Run (Guarded C Step) s es t ↔ Run (Guarded D Step) s es t := by
  constructor
  · intro h
    induction h with
    | nil => exact .nil
    | snoc h hs ih => exact .snoc ih ⟨(hiff (h.unguard.invariant h0 hstep) hs.2).mp hs.1, hs.2⟩
  · intro h
    induction h with
    | nil => exact .nil
    | snoc h hs ih => exact .snoc ih ⟨(hiff (h.unguard.invariant h0 hstep) hs.2).mpr hs.1, hs.2⟩

/-- Every step is matched by one of another relation, as long as each label so far was
one that the other relation allows. What relates the states may depend on the labels. -/
theorem Run.simulate {τ : Type*} {Step' : τ → ε → τ → Prop} {C : τ → ε → Prop}
    {Rel : List ε → σ → τ → Prop} {a : τ}
    (h : Run Step s es t) (h0 : Rel [] s a)
    (hgood : ∀ fs e gs, es = fs ++ e :: gs → ∀ b, Run Step' a fs b → C b e)
    (hstep : ∀ {es s t e b}, Rel es s b → C b e → Step s e t → ∃ c, Step' b e c ∧ Rel (es ++ [e]) t c) :
    ∃ b, Run Step' a es b ∧ Rel es t b := by
  induction h with
  | nil => exact ⟨a, .nil, h0⟩
  | @snoc es t e u _ hs ih =>
    obtain ⟨b, hrun, hrel⟩ := ih fun fs e' gs heq => hgood fs e' (gs ++ [e]) (by simp [heq])
    obtain ⟨c, hstep', hrel'⟩ := hstep hrel (hgood es e [] rfl b hrun) hs
    exact ⟨c, .snoc hrun hstep', hrel'⟩

theorem run_nil_iff : Run Step s [] t ↔ s = t := by
  constructor
  · intro h
    generalize hes : ([] : List ε) = es at h
    cases h with
    | nil => rfl
    | snoc => simp at hes
  · rintro rfl
    exact .nil

theorem run_snoc_iff : Run Step s (es ++ [e]) u ↔ ∃ t, Run Step s es t ∧ Step t e u := by
  constructor
  · intro h
    generalize hes : es ++ [e] = fs at h
    cases h with
    | nil => simp at hes
    | snoc h hs =>
      obtain ⟨rfl, he⟩ := List.append_inj' hes rfl
      cases he
      exact ⟨_, h, hs⟩
  · rintro ⟨t, h, hs⟩
    exact .snoc h hs

theorem Run.unique {step : σ → ε → Option σ} (h : Run (Steps step) s es t)
    (h' : Run (Steps step) s es u) :
    t = u := by
  induction h generalizing u with
  | nil => exact run_nil_iff.mp h'
  | snoc _ hs ih =>
    obtain ⟨v, hv, hsv⟩ := run_snoc_iff.mp h'
    obtain rfl := ih hv
    exact Option.some.inj (hs.symm.trans hsv)

theorem run_append_iff : Run Step s (es ++ fs) u ↔ ∃ t, Run Step s es t ∧ Run Step t fs u := by
  constructor
  · intro h
    induction fs using List.reverseRecOn generalizing u with
    | nil => exact ⟨u, by simpa using h, .nil⟩
    | append_singleton fs e ih =>
      rw [← List.append_assoc, run_snoc_iff] at h
      obtain ⟨v, hv, hs⟩ := h
      obtain ⟨t, ht, htv⟩ := ih hv
      exact ⟨t, ht, .snoc htv hs⟩
  · rintro ⟨t, h, h'⟩
    exact h.append h'

theorem run_cons_iff : Run Step s (e :: es) u ↔ ∃ t, Step s e t ∧ Run Step t es u := by
  rw [← List.singleton_append, run_append_iff]
  constructor
  · rintro ⟨t, h, h'⟩
    obtain ⟨t', h0, hs⟩ := run_snoc_iff.mp (show Run Step s ([] ++ [e]) t from h)
    rw [run_nil_iff] at h0
    subst h0
    exact ⟨t, hs, h'⟩
  · rintro ⟨t, hs, h'⟩
    exact ⟨t, .single hs, h'⟩

theorem run_steps_iff {step : σ → ε → Option σ} :
    Run (Steps step) s es t ↔ es.foldlM step s = some t := by
  induction es generalizing s with
  | nil => exact run_nil_iff.trans (Option.some_inj.symm)
  | cons e es ih =>
    rw [run_cons_iff, List.foldlM_cons, Option.bind_eq_bind, Option.bind_eq_some_iff]
    exact exists_congr fun v => and_congr_right fun _ => ih

theorem run_guarded_iff {step : σ → ε → Option σ} {C : σ → ε → Prop} :
    Run (Guarded C (Steps step)) s es t ↔
      Run (Steps step) s es t ∧
        ∀ past e rest u, es = past ++ e :: rest → Run (Steps step) s past u → C u e := by
  constructor
  · intro h
    refine ⟨h.unguard, ?_⟩
    rintro past e rest u rfl hu
    obtain ⟨v, hv, hrest⟩ := run_append_iff.mp h
    obtain ⟨w, hvw, _⟩ := run_cons_iff.mp hrest
    obtain rfl := hu.unique hv.unguard
    exact hvw.1
  · rintro ⟨h, hC⟩
    induction h with
    | nil => exact .nil
    | @snoc es t e u h hs ih =>
      refine .snoc (ih fun past e' rest u he => hC past e' (rest ++ [e]) u ?_) ⟨hC _ _ [] _ rfl h, hs⟩
      rw [he, List.append_assoc, List.cons_append]

end Transition
