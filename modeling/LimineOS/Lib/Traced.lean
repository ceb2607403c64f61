import Mathlib.Control.Monad.Basic

/-!
# Computations with a trace

A `Traced` computation performs events, and may ask its surroundings, whose
answers depend on all events so far. `Emits P` says that its own events and its
result satisfy `P`, whatever happened before.
-/

abbrev Traced (ε α : Type) : Type := StateM (List ε) α

namespace Traced

section
variable {ε α β : Type} {P : List ε → α → Prop} {Q : List ε → β → Prop} {m : Traced ε α}
  {f : α → Traced ε β}

def perform (e : ε) : Traced ε Unit := fun es => ((), es ++ [e])

def ask (e : ε) (answer : List ε → α) : Traced ε α := fun es => (answer es, es ++ [e])

def fromStart (m : Traced ε α) : α × List ε := m []

def Emits (P : List ε → α → Prop) (m : Traced ε α) : Prop :=
  ∀ es, ∃ new, (m es).2 = es ++ new ∧ P new (m es).1

theorem Emits.fromStart (h : Emits P m) : P (fromStart m).2 (fromStart m).1 := by
  obtain ⟨new, heq, hP⟩ := h []
  have hevents : (m []).2 = new := heq.trans (List.nil_append new)
  show P (m []).2 (m []).1
  rwa [hevents]

theorem Emits.mono {P' : List ε → α → Prop} (h : Emits P m) (hP : ∀ es a, P es a → P' es a) :
    Emits P' m := by
  intro es
  obtain ⟨new, heq, hnew⟩ := h es
  exact ⟨new, heq, hP _ _ hnew⟩

theorem emits_pure {a : α} (h : P [] a) : Emits P (pure a) :=
  fun es => ⟨[], (List.append_nil es).symm, h⟩

theorem emits_perform {e : ε} {P : List ε → Unit → Prop} (h : P [e] ()) : Emits P (perform e) :=
  fun _ => ⟨[e], rfl, h⟩

theorem emits_ask {e : ε} {answer : List ε → α} (h : ∀ es, P [e] (answer es)) :
    Emits P (ask e answer) :=
  fun es => ⟨[e], rfl, h es⟩

theorem Emits.bind (h : Emits P m) (hf : ∀ es a, P es a → Emits (fun new => Q (es ++ new)) (f a)) :
    Emits Q (m >>= f) := by
  intro es
  obtain ⟨new, heq, hP⟩ := h es
  obtain ⟨new', heq', hQ⟩ := hf new _ hP (m es).2
  refine ⟨new ++ new', ?_, hQ⟩
  rw [← List.append_assoc, ← heq]
  exact heq'

end

end Traced
