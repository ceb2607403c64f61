import Mathlib.Control.Monad.Writer

/-!
# Computations that log what they use

A `Logged` computation is a value with the list of the cells used on the way
to it. `Uses P` says that each of them satisfies `P`; it holds of a whole
computation as soon as it holds of its parts.
-/

abbrev Logged (ι α : Type) : Type := Writer (List ι) α

namespace Logged

section
variable {ι κ α β γ : Type} {P : ι → Prop} {m : Logged ι α} {f : α → Logged ι β}

def val (m : Logged ι α) : α := m.run.1

def log (m : Logged ι α) : List ι := m.run.2

def use (i : ι) (a : α) : Logged ι α := WriterT.mk (a, [i])

@[simp] theorem val_use (i : ι) (a : α) : (use i a).val = a := rfl
@[simp] theorem log_use (i : ι) (a : α) : (use i a).log = [i] := rfl

@[simp] theorem val_pure (a : α) : (pure a : Logged ι α).val = a := rfl
@[simp] theorem log_pure (a : α) : (pure a : Logged ι α).log = [] := rfl

@[simp] theorem val_bind : (m >>= f).val = (f m.val).val := rfl
@[simp] theorem log_bind : (m >>= f).log = m.log ++ (f m.val).log := rfl

def via (g : ι → κ) (m : Logged ι α) : Logged κ α := WriterT.mk (m.val, m.log.map g)

@[simp] theorem val_via {g : ι → κ} : (m.via g).val = m.val := rfl
@[simp] theorem log_via {g : ι → κ} : (m.via g).log = m.log.map g := rfl

def Uses (P : ι → Prop) (m : Logged ι α) : Prop := ∀ i ∈ m.log, P i

theorem Uses.use {i : ι} {a : α} (h : P i) : Uses P (use i a) := by
  intro j hj
  rwa [List.mem_singleton.mp hj]

theorem Uses.pure {a : α} : Uses P (pure a : Logged ι α) := by simp [Uses]

theorem Uses.bind (h : Uses P m) (hf : Uses P (f m.val)) : Uses P (m >>= f) := by
  intro i hi
  rcases List.mem_append.mp hi with hi | hi
  · exact h i hi
  · exact hf i hi

theorem uses_bind_iff : Uses P (m >>= f) ↔ Uses P m ∧ Uses P (f m.val) := by
  simp only [Uses, log_bind, List.mem_append, or_imp, forall_and]

theorem uses_pure_iff {a : α} : Uses P (pure a : Logged ι α) ↔ True := iff_of_true Uses.pure trivial

theorem uses_use_iff {i : ι} {a : α} : Uses P (use i a) ↔ P i := by simp [Uses]

theorem uses_via_iff {g : κ → ι} {m : Logged κ α} :
    Uses P (m.via g) ↔ Uses (fun i => P (g i)) m := by simp [Uses]

theorem Uses.mono {Q : ι → Prop} (h : Uses P m) (hPQ : ∀ i, P i → Q i) : Uses Q m :=
  fun i hi => hPQ i (h i hi)

theorem val_foldlM {g : γ → α → Logged ι γ} {g' : γ → α → γ} (hg : ∀ c a, (g c a).val = g' c a)
    (l : List α) (c : γ) :
    (l.foldlM g c).val = l.foldl g' c := by
  induction l generalizing c with
  | nil => rfl
  | cons a l ih => rw [List.foldlM_cons, val_bind, ih, hg, List.foldl_cons]

theorem mem_log_foldlM {g : γ → α → Logged ι γ} {cells : α → Set ι}
    (hg : ∀ c a i, i ∈ (g c a).log ↔ i ∈ cells a)
    {l : List α} {c : γ} {i : ι} : i ∈ (l.foldlM g c).log ↔ ∃ a ∈ l, i ∈ cells a := by
  induction l generalizing c with
  | nil => simp
  | cons a l ih =>
    rw [List.foldlM_cons, log_bind, List.mem_append, hg, ih]
    simp only [List.mem_cons, exists_eq_or_imp]

end

end Logged
