import Mathlib.Control.Monad.Basic
import Mathlib.Data.Nat.Find
import Mathlib.Data.Nat.Init

/-!
# Computations that may not end

A computation gets fuel and gives nothing when the fuel runs out. `Ends m P` is
total correctness: with enough fuel there is a result, which satisfies `P`.
`Safe m P` is partial correctness: every result satisfies `P`, so that a
computation is `Safe` for the false postcondition if it never ends.
-/

abbrev Fueled (α : Type) : Type := ReaderT Nat Option α

namespace Fueled

section
variable {σ α β : Type} {P : α → Prop} {Q : β → Prop} {m : Fueled α} {f : α → Fueled β}
  {step : σ → σ ⊕ α}

def iterateAt (step : σ → σ ⊕ α) : Nat → σ → Option α
  | 0, _ => none
  | fuel + 1, s =>
    match step s with
    | .inl s' => iterateAt step fuel s'
    | .inr a => some a

/-- A loop, which goes on from a left value and ends with a right one. -/
def iterate (step : σ → σ ⊕ α) (s : σ) : Fueled α := fun fuel => iterateAt step fuel s

def iterateMAt (step : σ → Fueled (σ ⊕ α)) : Nat → σ → Option α
  | 0, _ => none
  | fuel + 1, s => (step s fuel).bind fun r => r.elim (iterateMAt step fuel) some

/-- A loop with other loops in its body. -/
def iterateM (step : σ → Fueled (σ ⊕ α)) (s : σ) : Fueled α := fun fuel => iterateMAt step fuel s

def Ends (m : Fueled α) (P : α → Prop) : Prop := ∃ n a, P a ∧ ∀ fuel ≥ n, m fuel = some a

def Safe (m : Fueled α) (P : α → Prop) : Prop := ∀ fuel a, m fuel = some a → P a

theorem Ends.mono {P' : α → Prop} (h : Ends m P) (hP : ∀ a, P a → P' a) : Ends m P' := by
  obtain ⟨n, a, ha, hm⟩ := h
  exact ⟨n, a, hP a ha, hm⟩

theorem Safe.mono {P' : α → Prop} (h : Safe m P) (hP : ∀ a, P a → P' a) : Safe m P' :=
  fun fuel a hm => hP a (h fuel a hm)

theorem Ends.exists_eq_some (h : Ends m P) : ∃ fuel a, m fuel = some a ∧ P a := by
  obtain ⟨n, a, ha, hm⟩ := h
  exact ⟨n, a, hm n (Nat.le_refl n), ha⟩

theorem Ends.and_safe {P' : α → Prop} (h : Ends m P) (hsafe : Safe m P') :
    Ends m fun a => P a ∧ P' a := by
  obtain ⟨n, a, ha, hm⟩ := h
  exact ⟨n, a, ⟨ha, hsafe n a (hm n (Nat.le_refl n))⟩, hm⟩

theorem Ends.and {P' : α → Prop} (h : Ends m P) (h' : Ends m P') : Ends m fun a => P a ∧ P' a := by
  obtain ⟨n, a, ha, hm⟩ := h
  obtain ⟨n', a', ha', hm'⟩ := h'
  have heq := (hm (max n n') (by omega)).symm.trans (hm' (max n n') (by omega))
  exact ⟨n, a, ⟨ha, Option.some.inj heq ▸ ha'⟩, hm⟩

theorem Safe.not_ends (h : Safe m fun _ => False) : ¬Ends m P := fun hends => by
  obtain ⟨_, _, ⟨-, hfalse⟩, -⟩ := hends.and_safe h
  exact hfalse

theorem ends_pure {a : α} (h : P a) : Ends (pure a) P := ⟨0, a, h, fun _ _ => rfl⟩

theorem safe_pure {a : α} (h : P a) : Safe (pure a) P := by
  rintro _ _ ⟨⟩
  exact h

def ofOption (a : Option α) : Fueled α := fun _ => a

theorem ends_ofOption {o : Option α} {a : α} (ho : o = some a) (h : P a) : Ends (ofOption o) P :=
  ⟨0, a, h, fun _ _ => ho⟩

theorem bind_apply (fuel : Nat) : (m >>= f) fuel = (m fuel).bind fun a => f a fuel := rfl

theorem Ends.bind (h : Ends m P) (hf : ∀ a, P a → Ends (f a) Q) : Ends (m >>= f) Q := by
  obtain ⟨n, a, ha, hm⟩ := h
  obtain ⟨k, b, hb, hfa⟩ := hf a ha
  refine ⟨max n k, b, hb, fun fuel hfuel => ?_⟩
  rw [bind_apply, hm fuel (by omega), Option.bind_some, hfa fuel (by omega)]

theorem Safe.bind (h : Safe m P) (hf : ∀ a, P a → Safe (f a) Q) : Safe (m >>= f) Q := by
  intro fuel b hb
  obtain ⟨a, ha, hfa⟩ := Option.bind_eq_some_iff.mp hb
  exact hf a (h fuel a ha) fuel b hfa

theorem iterate_succ (s : σ) (fuel : Nat) :
    iterate step s (fuel + 1) = (step s).elim (fun s' => iterate step s' fuel) some := by
  rw [iterate, iterateAt]
  cases step s <;> rfl

theorem ends_iterate_inr {s : σ} {a : α} (hs : step s = .inr a) (h : P a) :
    Ends (iterate step s) P := by
  refine ⟨1, a, h, fun fuel hfuel => ?_⟩
  obtain ⟨fuel, rfl⟩ := Nat.exists_eq_add_of_le' hfuel
  rw [iterate_succ, hs, Sum.elim_inr]

theorem ends_iterate_inl {s s' : σ} (hs : step s = .inl s') (h : Ends (iterate step s') P) :
    Ends (iterate step s) P := by
  obtain ⟨n, a, ha, hm⟩ := h
  refine ⟨n + 1, a, ha, fun fuel hfuel => ?_⟩
  obtain ⟨fuel, rfl⟩ := Nat.exists_eq_add_of_le' (Nat.le_of_add_left_le hfuel)
  rw [iterate_succ, hs, Sum.elim_inl, hm fuel (by omega)]

theorem Ends.iterateM {body : σ → Fueled (σ ⊕ α)} {R : σ ⊕ α → Prop} {s : σ} (h : Ends (body s) R)
    (hR : ∀ r, R r → r.elim (fun s' => Ends (iterateM body s') P) P) : Ends (iterateM body s) P := by
  obtain ⟨n, r, hr, hbody⟩ := h
  have hnext := hR r hr
  cases r with
  | inl s' =>
    obtain ⟨k, a, ha, hm⟩ := hnext
    refine ⟨max n k + 1, a, ha, fun fuel hfuel => ?_⟩
    obtain ⟨fuel, rfl⟩ := Nat.exists_eq_add_of_le' (Nat.le_of_add_left_le hfuel)
    show (body s fuel).bind _ = _
    rw [hbody fuel (by omega), Option.bind_some]
    exact hm fuel (by omega)
  | inr a =>
    refine ⟨n + 1, a, hnext, fun fuel hfuel => ?_⟩
    obtain ⟨fuel, rfl⟩ := Nat.exists_eq_add_of_le' (Nat.le_of_add_left_le hfuel)
    show (body s fuel).bind _ = _
    rw [hbody fuel (by omega), Option.bind_some]
    rfl

theorem iterate_mono {s : σ} {a : α} {fuel fuel' : Nat} (h : iterate step s fuel = some a)
    (hle : fuel ≤ fuel') :
    iterate step s fuel' = some a := by
  induction fuel generalizing s fuel' with
  | zero => exact absurd h.symm (Option.some_ne_none a)
  | succ fuel ih =>
    obtain ⟨fuel', rfl⟩ := Nat.exists_eq_add_of_le' (Nat.le_of_add_left_le hle)
    rw [iterate_succ] at h ⊢
    cases hnext : step s with
    | inl s' =>
      rw [hnext] at h
      exact ih h (by omega)
    | inr b =>
      rw [hnext] at h
      exact h

theorem Ends.safe_iterate {s : σ} (h : Ends (iterate step s) P) : Safe (iterate step s) P := by
  intro fuel a ha
  obtain ⟨n, b, hb, hn⟩ := h
  have heq := (iterate_mono ha (Nat.le_max_left fuel n)).symm.trans (hn _ (Nat.le_max_right fuel n))
  cases heq
  exact hb

theorem Ends.bind_iterate {s : σ} (h : Ends (iterate step s) P)
    (hf : ∀ a, P a → Ends (f a) Q ∧ Safe (f a) Q) :
    Ends (iterate step s >>= f) Q ∧ Safe (iterate step s >>= f) Q :=
  ⟨h.bind fun a ha => (hf a ha).1, h.safe_iterate.bind fun a ha => (hf a ha).2⟩

theorem ends_bind_of {a : α} (h : Ends m (· = a)) : Ends (m >>= f) Q ↔ Ends (f a) Q := by
  constructor
  · rintro ⟨n, b, hb, hn⟩
    obtain ⟨k, _, rfl, hk⟩ := h
    refine ⟨max n k, b, hb, fun fuel hfuel => ?_⟩
    have hbind := hn fuel (by omega)
    rwa [bind_apply, hk fuel (by omega), Option.bind_some] at hbind
  · intro hf
    exact h.bind fun b hb => hb ▸ hf

theorem ends_ofOption_bind_iff {o : Option α} :
    Ends (ofOption o >>= f) Q ↔ ∃ a, o = some a ∧ Ends (f a) Q := by
  cases o with
  | none =>
    refine iff_of_false ?_ (by simp)
    rintro ⟨n, b, -, hn⟩
    exact absurd (hn n (Nat.le_refl n)) (by simp [bind_apply, ofOption])
  | some a =>
    rw [ends_bind_of (ends_ofOption rfl rfl)]
    simp

theorem ends_ofOption_ofOption_iff {x : Option α} {y : α → Option β} {g : α → β → γ} :
    Ends (ofOption x >>= fun a => ofOption (y a) >>= fun b => pure (g a b)) (fun _ => True) ↔
      (x.bind y).isSome := by
  rw [ends_ofOption_bind_iff]
  cases x with
  | none => simp
  | some a =>
    simp only [Option.some.injEq, exists_eq_left', Option.bind_some, ends_ofOption_bind_iff]
    cases y a with
    | none => simp
    | some b => simp [ends_pure]

theorem ends_bind_stuck_iff {C : Prop} {D R : α → Prop} (hstuck : C → Safe m fun _ => False)
    (hends : ¬C → Ends m P)
    (hsafe : Safe m R) (hf : ∀ a, R a → (Ends (f a) Q ↔ ¬D a)) :
    Ends (m >>= f) Q ↔ ¬(C ∨ ∃ a, Ends m (· = a) ∧ D a) := by
  by_cases hC : C
  · exact iff_of_false
      ((hstuck hC).bind fun _ hfalse => hfalse.elim : Safe (m >>= f) fun _ => False).not_ends
      (not_not.mpr (.inl hC))
  · obtain ⟨n, a, ⟨-, ha⟩, hm⟩ := (hends hC).and_safe hsafe
    have hval : Ends m (· = a) := ⟨n, a, rfl, hm⟩
    rw [ends_bind_of hval, hf a ha, or_iff_right hC]
    constructor
    · rintro hD ⟨b, hb, hDb⟩
      obtain ⟨-, c, ⟨rfl, rfl⟩, -⟩ := hval.and hb
      exact hD hDb
    · intro hnone hD
      exact hnone ⟨a, hval, hD⟩

theorem ends_bind_iff {C : Prop} {R : α → Prop} (hstuck : C → Safe m fun _ => False)
    (hends : ¬C → Ends m P) (hsafe : Safe m R)
    (hf : ∀ a, R a → Ends (f a) Q) : Ends (m >>= f) Q ↔ ¬C := by
  have hnever : ¬(C ∨ ∃ a, Ends m (· = a) ∧ False) ↔ ¬C := by simp
  exact (ends_bind_stuck_iff hstuck hends hsafe fun a ha => iff_of_true (hf a ha) id).trans hnever

/-- The rule for an invariant with a variant. -/
theorem ends_iterate {I : Nat → σ → Prop} (hnext : ∀ n s s', I n s → step s = .inl s' → ∃ m < n, I m s')
    (hlast : ∀ n s a, I n s → step s = .inr a → P a) {n : Nat} {s : σ} (hs : I n s) :
    Ends (iterate step s) P := by
  induction n using Nat.strong_induction_on generalizing s with
  | _ n ih =>
    cases hstep : step s with
    | inl s' =>
      obtain ⟨m, hm, hI⟩ := hnext n s s' hs hstep
      exact ends_iterate_inl hstep (ih m hm hI)
    | inr a => exact ends_iterate_inr hstep (hlast n s a hs hstep)

/-- The rule for an invariant. -/
theorem safe_iterate {I : σ → Prop} (hstep : ∀ s, I s → (step s).elim I P) {s : σ} (hs : I s) :
    Safe (iterate step s) P := by
  intro fuel
  induction fuel generalizing s with
  | zero =>
    intro a ha
    exact absurd ha.symm (Option.some_ne_none a)
  | succ fuel ih =>
    intro a ha
    have hI := hstep s hs
    rw [iterate_succ] at ha
    cases hnext : step s with
    | inl s' =>
      rw [hnext] at ha hI
      exact ih hI a ha
    | inr b =>
      rw [hnext] at ha hI
      cases ha
      exact hI

end

-- ---------------------------------------------------------------------------
-- Waiting
-- ---------------------------------------------------------------------------

section
variable {p : Nat → Prop} [DecidablePred p] {n k : Nat} {Q : Nat → Prop}

/-- The loop that goes on while `p` holds, from the `n`-th observation. -/
def wait (p : Nat → Prop) [DecidablePred p] (n : Nat) : Fueled Nat :=
  iterate (fun k => if p k then .inl (k + 1) else .inr k) n

theorem wait_inl (h : p k) : (if p k then .inl (k + 1) else .inr k : Nat ⊕ Nat) = .inl (k + 1) :=
  if_pos h

theorem wait_inr (h : ¬p k) : (if p k then .inl (k + 1) else .inr k : Nat ⊕ Nat) = .inr k := if_neg h

theorem wait_safe : Safe (wait p n) fun k => n ≤ k ∧ ¬p k ∧ ∀ j, n ≤ j → j < k → p j := by
  refine safe_iterate (I := fun k => n ≤ k ∧ ∀ j, n ≤ j → j < k → p j) (fun k hk => ?_)
    ⟨Nat.le_refl n, fun j hj hjn => by omega⟩
  obtain ⟨hnk, hbefore⟩ := hk
  by_cases hp : p k
  · rw [wait_inl hp]
    refine ⟨by omega, fun j hj hjk => ?_⟩
    rcases Nat.lt_succ_iff_lt_or_eq.mp hjk with hlt | rfl
    · exact hbefore j hj hlt
    · exact hp
  · rw [wait_inr hp]
    exact ⟨hnk, hp, hbefore⟩

theorem wait_ends (hk : n ≤ k) (hp : ¬p k) : Ends (wait p n) fun j => j ≤ k := by
  induction hk using Nat.decreasingInduction with
  | self => exact ends_iterate_inr (wait_inr hp) (Nat.le_refl k)
  | of_succ n hn ih =>
    by_cases hpn : p n
    · exact ends_iterate_inl (wait_inl hpn) ih
    · exact ends_iterate_inr (wait_inr hpn) (by omega)

/-- Waiting ends at an observation that satisfies `Q`, and at the first one, if and only if it
goes on exactly while `Q` has not been seen. -/
theorem wait_exact_iff :
    (Safe (wait p n) Q ∧ ∀ k, n ≤ k → Q k → Ends (wait p n) fun j => j ≤ k) ↔
      ∀ k, n ≤ k → (∀ j, n ≤ j → j < k → ¬Q j) → (¬p k ↔ Q k) := by
  constructor
  · rintro ⟨hsafe, hends⟩ k hk hbefore
    have hfirst : (Ends (wait p n) fun j => j ≤ k) → ¬p k ∧ Q k := by
      intro h
      obtain ⟨_, j, ⟨⟨hjk, hQ⟩, hnj, hpj, -⟩, -⟩ := (h.and_safe hsafe).and_safe wait_safe
      obtain hlt | rfl := Nat.lt_or_eq_of_le hjk
      · exact absurd hQ (hbefore j hnj hlt)
      · exact ⟨hpj, hQ⟩
    exact ⟨fun hp => (hfirst (wait_ends hk hp)).2, fun hQ => (hfirst (hends k hk hQ)).1⟩
  · intro h
    constructor
    · refine wait_safe.mono fun k hk => ?_
      obtain ⟨hnk, hpk, hbefore⟩ := hk
      refine (h k hnk fun j hnj => ?_).mp hpk
      induction j using Nat.strong_induction_on with
      | _ j ih =>
        intro hjk hQ
        exact (h j hnj fun i hni hij => ih i hij hni (by omega)).mpr hQ (hbefore j hnj hjk)
    · intro k hk hQ
      obtain ⟨m, ⟨hnm, hm⟩, hmin⟩ : ∃ m, (n ≤ m ∧ Q m) ∧ ∀ j < m, ¬(n ≤ j ∧ Q j) := by
        classical
        have hex : ∃ m, n ≤ m ∧ Q m := ⟨k, hk, hQ⟩
        exact ⟨Nat.find hex, Nat.find_spec hex, fun j hj => Nat.find_min hex hj⟩
      have hmk : m ≤ k := by
        by_contra hlt
        exact hmin k (by omega) ⟨hk, hQ⟩
      have hpm : ¬p m := (h m hnm fun j hnj hjm hQj => hmin j hjm ⟨hnj, hQj⟩).mpr hm
      exact (wait_ends hnm hpm).mono fun j hj => Nat.le_trans hj hmk

end

end Fueled
