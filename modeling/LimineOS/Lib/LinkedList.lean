import Mathlib.Data.List.Rotate
import Mathlib.Order.Interval.Finset.Nat

/-!
# Singly linked lists and rounds over them

`Linked next h l` says that following `next` from `h` meets exactly the nodes
of `l`, in order, and ends. A round at a node `c` lists the nodes in the order
in which a cursor that wraps around at the end meets them after `c`, with `c`
itself last. Moving the cursor one node on rotates the round by one.
-/

namespace LinkedList

section
variable {α : Type} {next next' : α → Option α} {h h' : Option α} {l l' A B round : List α}
  {a c p t : α}

def Linked (next : α → Option α) : Option α → List α → Prop
  | h, [] => h = none
  | h, a :: l => h = some a ∧ Linked next (next a) l

theorem Linked.head (hl : Linked next h l) : h = l.head? := by
  cases l with
  | nil => exact hl
  | cons a l => exact hl.1

theorem Linked.unique (hl : Linked next h l) (hl' : Linked next h l') : l = l' := by
  induction l generalizing h l' with
  | nil =>
    cases l' with
    | nil => rfl
    | cons a l' => exact absurd (hl.symm.trans hl'.1) (by simp)
  | cons a l ih =>
    cases l' with
    | nil => exact absurd (hl.1.symm.trans hl') (by simp)
    | cons b l' =>
      obtain rfl := Option.some.inj (hl.1.symm.trans hl'.1)
      rw [ih hl.2 hl'.2]

inductive Meets (next : α → Option α) : Option α → α → Prop
  | here {a : α} : Meets next (some a) a
  | later {a b : α} : Meets next (next b) a → Meets next (some b) a

theorem Linked.meets_iff (hl : Linked next h l) : Meets next h a ↔ a ∈ l := by
  induction l generalizing h with
  | nil =>
    obtain rfl : h = none := hl
    exact iff_of_false (fun hmeets => by cases hmeets) List.not_mem_nil
  | cons b l ih =>
    obtain ⟨rfl, htail⟩ := hl
    rw [List.mem_cons, ← ih htail]
    constructor
    · intro hmeets
      cases hmeets with
      | here => exact .inl rfl
      | later hmeets => exact .inr hmeets
    · rintro (rfl | hmeets)
      · exact .here
      · exact .later hmeets

theorem Linked.congr (hl : Linked next h l) (hsame : ∀ a ∈ l, next' a = next a) : Linked next' h l := by
  induction l generalizing h with
  | nil => exact hl
  | cons a l ih =>
    refine ⟨hl.1, ?_⟩
    rw [hsame a (by simp)]
    exact ih hl.2 fun b hb => hsame b (by simp [hb])

theorem Linked.next_eq (hl : Linked next h (A ++ c :: B)) : next c = B.head? := by
  induction A generalizing h with
  | nil => exact hl.2.head
  | cons a A ih => exact ih hl.2

theorem Linked.snoc (hl : Linked next h (l ++ [t])) (hfresh : p ∉ l ++ [t]) (ht : t ∉ l)
    (hlast : next' t = some p)
    (hp : next' p = none) (hsame : ∀ a ∈ l, next' a = next a) : Linked next' h (l ++ [t] ++ [p]) := by
  induction l generalizing h with
  | nil => exact ⟨hl.1, by rw [hlast]; exact ⟨rfl, hp⟩⟩
  | cons a l ih =>
    refine ⟨hl.1, ?_⟩
    rw [hsame a (by simp)]
    simp only [List.cons_append, List.mem_cons, not_or] at hfresh ht
    exact ih hl.2 hfresh.2 ht.2 fun b hb => hsame b (by simp [hb])

theorem Linked.unlink (hl : Linked next h (A ++ p :: c :: B)) (hp : next' p = next c)
    (hsame : ∀ a ∈ A ++ B, next' a = next a) : Linked next' h (A ++ p :: B) := by
  induction A generalizing h with
  | nil =>
    refine ⟨hl.1, ?_⟩
    rw [hp]
    exact hl.2.2.congr hsame
  | cons a A ih =>
    refine ⟨hl.1, ?_⟩
    rw [hsame a (by simp)]
    exact ih hl.2 fun b hb => hsame b (List.mem_cons_of_mem _ hb)

theorem Linked.next_iff {b : α} (hl : Linked next h l) (ha : a ∈ l) :
    next a = some b ↔ ∃ A B, l = A ++ a :: b :: B := by
  constructor
  · intro hb
    obtain ⟨A, B, rfl⟩ := List.append_of_mem ha
    rw [hl.next_eq] at hb
    cases B with
    | nil => exact absurd hb.symm (Option.some_ne_none b)
    | cons c B =>
      cases hb
      exact ⟨A, B, rfl⟩
  · rintro ⟨A, B, rfl⟩
    exact hl.next_eq

theorem Linked.inverse {b : α} {prev : α → Option α} (hl : Linked next h l)
    (hback : Linked prev h' l.reverse)
    (ha : a ∈ l) (hb : b ∈ l) : next a = some b ↔ prev b = some a := by
  rw [hl.next_iff ha, hback.next_iff (List.mem_reverse.mpr hb)]
  constructor
  · rintro ⟨A, B, rfl⟩
    exact ⟨B.reverse, A.reverse, by simp⟩
  · rintro ⟨A, B, heq⟩
    exact ⟨B.reverse, A.reverse, by simpa using congrArg List.reverse heq⟩

-- ---------------------------------------------------------------------------
-- Lists linked in both directions
-- ---------------------------------------------------------------------------

variable {prev prev' : α → Option α}

def DLinked (next prev : α → Option α) (l : List α) : Prop :=
  ∀ A c B, l = A ++ c :: B → next c = B.head? ∧ prev c = A.getLast?

theorem dlinked_nil : DLinked next prev [] := fun A c B h => absurd h (by simp)

theorem dlinked_singleton (hn : next a = none) (hp : prev a = none) : DLinked next prev [a] := by
  intro A c B heq
  cases A with
  | nil =>
    obtain ⟨rfl, rfl⟩ := List.cons.inj heq
    exact ⟨hn, hp⟩
  | cons b A => exact absurd (List.cons.inj heq).2 (by simp)

theorem DLinked.linked_from (h : DLinked next prev (A ++ c :: B)) : Linked next (next c) B := by
  induction B generalizing A c with
  | nil => exact (h A c [] rfl).1
  | cons d B ih =>
    refine ⟨(h A c (d :: B) rfl).1, ih (A := A ++ [c]) ?_⟩
    rwa [List.append_assoc]

theorem DLinked.linked (h : DLinked next prev l) : Linked next l.head? l := by
  cases l with
  | nil => rfl
  | cons a l => exact ⟨rfl, h.linked_from (A := [])⟩

theorem DLinked.next_split {b : α} (h : DLinked next prev l) (ha : a ∈ l) (hb : next a = some b) :
    ∃ A B, l = A ++ a :: b :: B := by
  obtain ⟨A, B, rfl⟩ := List.append_of_mem ha
  rw [(h A a B rfl).1] at hb
  cases B with
  | nil => exact absurd hb (by simp)
  | cons c B =>
    cases hb
    exact ⟨A, B, rfl⟩

theorem DLinked.prev_split {b : α} (h : DLinked next prev l) (ha : a ∈ l) (hb : prev a = some b) :
    ∃ A B, l = A ++ b :: a :: B := by
  obtain ⟨A, B, rfl⟩ := List.append_of_mem ha
  rw [(h A a B rfl).2, List.getLast?_eq_some_iff] at hb
  obtain ⟨A, rfl⟩ := hb
  exact ⟨A, B, by simp⟩

theorem DLinked.congr (h : DLinked next prev l) (hnext : ∀ a ∈ l, next' a = next a)
    (hprev : ∀ a ∈ l, prev' a = prev a) :
    DLinked next' prev' l := by
  rintro A c B rfl
  rw [hnext c (by simp), hprev c (by simp)]
  exact h A c B rfl

theorem DLinked.cons [DecidableEq α] (h : DLinked next prev l) (hl : l.Nodup)
    (ht : next' t = l.head?) (ht' : prev' t = none)
    (hnext : ∀ a ∈ l, next' a = next a)
    (hprev : ∀ a ∈ l, prev' a = if l.head? = some a then some t else prev a) :
    DLinked next' prev' (t :: l) := by
  rintro A c B heq
  cases A with
  | nil =>
    obtain ⟨rfl, rfl⟩ := List.cons.inj heq
    exact ⟨ht, ht'⟩
  | cons d A =>
    obtain ⟨rfl, rfl⟩ := List.cons.inj heq
    obtain ⟨hc, hc'⟩ := h A c B rfl
    rw [hnext c (by simp), hprev c (by simp)]
    refine ⟨hc, ?_⟩
    cases A with
    | nil => exact if_pos rfl
    | cons a A =>
      have hac : a ≠ c := by
        rintro rfl
        simp at hl
      rw [if_neg (by simpa using hac), hc', List.getLast?_cons_cons]

theorem DLinked.erase [DecidableEq α] (h : DLinked next prev (A ++ c :: B)) (hl : (A ++ c :: B).Nodup)
    (hnext : ∀ a ∈ A ++ B, next' a = if prev c = some a then next c else next a)
    (hprev : ∀ a ∈ A ++ B, prev' a = if next c = some a then prev c else prev a) :
    DLinked next' prev' (A ++ B) := by
  obtain ⟨hcnext, hcprev⟩ := h A c B rfl
  rintro A' d B' heq
  have hmem : d ∈ A ++ B := heq ▸ by simp
  rw [hnext d hmem, hprev d hmem, hcnext, hcprev]
  rcases List.append_eq_append_iff.mp heq with ⟨C, rfl, rfl⟩ | ⟨C, rfl, hC⟩
  · -- behind the node, or right behind it
    obtain ⟨hd, hd'⟩ := h (A ++ c :: C) d B' (by simp)
    have hlast : A.getLast? ≠ some d := by
      intro hA
      have hdA := List.mem_of_getLast? hA
      exact List.disjoint_of_nodup_append hl hdA (by simp)
    rw [if_neg hlast, hd, hd']
    refine ⟨rfl, ?_⟩
    cases C with
    | nil => simp
    | cons e C =>
      have hed : e ≠ d := by
        rintro rfl
        simp [List.nodup_append] at hl
      rw [List.cons_append, List.head?_cons, if_neg (by simpa using hed)]
      simp
  · cases C with
    | nil =>
      obtain rfl : B = d :: B' := by simpa using hC.symm
      obtain ⟨hd, hd'⟩ := h (A' ++ [c]) d B' (by simp)
      have hlast : A'.getLast? ≠ some d := by
        intro hA
        have hdA := List.mem_of_getLast? hA
        exact List.disjoint_of_nodup_append hl (by simpa using hdA) (by simp)
      rw [List.append_nil, if_neg hlast, hd]
      simp
    | cons e C =>
      obtain ⟨rfl, rfl⟩ : d = e ∧ B' = C ++ B := by simpa using hC
      obtain ⟨hd, hd'⟩ := h A' d (C ++ c :: B) (by simp)
      have hhead : B.head? ≠ some d := by
        intro hB
        have hdB := List.mem_of_head? hB
        exact List.disjoint_of_nodup_append hl (by simp) (List.mem_cons_of_mem c hdB)
      rw [if_neg hhead, hd']
      refine ⟨?_, rfl⟩
      cases C with
      | nil => simp
      | cons f C =>
        have hlast : (f :: C).getLast? ≠ some d := by
          intro hf
          have hdC := List.mem_of_getLast? hf
          have hnd := List.Nodup.of_append_left hl
          rw [List.nodup_append] at hnd
          exact (List.nodup_cons.mp hnd.2.1).1 hdC
        rw [hd, if_neg]
        · rfl
        · simpa [List.getLast?_append] using hlast

theorem DLinked.insert [DecidableEq α] (h : DLinked next prev (A ++ c :: B)) (hl : (A ++ c :: B).Nodup)
    (ht : next' t = next c) (ht' : prev' t = some c)
    (hnext : ∀ a ∈ A ++ c :: B, next' a = if a = c then some t else next a)
    (hprev : ∀ a ∈ A ++ c :: B, prev' a = if next c = some a then some t else prev a) :
    DLinked next' prev' (A ++ c :: t :: B) := by
  obtain ⟨hcnext, -⟩ := h A c B rfl
  rw [List.nodup_append, List.nodup_cons] at hl
  obtain ⟨-, ⟨hcB, hB⟩, hdisj⟩ := hl
  rintro A' d B' heq
  rcases List.append_eq_append_iff.mp heq with ⟨C, rfl, hC⟩ | ⟨C, rfl, hC⟩
  · cases C with
    | nil =>
      obtain ⟨rfl, rfl⟩ : c = d ∧ t :: B = B' := by simpa using hC
      obtain ⟨-, hc'⟩ := h A c B rfl
      have hself : B.head? ≠ some c := fun hb => hcB (List.mem_of_head? hb)
      rw [hnext c (by simp), hprev c (by simp), if_pos rfl, hcnext, if_neg hself, hc']
      simp
    | cons e C =>
      obtain ⟨rfl, hC⟩ : c = e ∧ t :: B = C ++ d :: B' := by simpa using hC
      cases C with
      | nil =>
        obtain ⟨rfl, rfl⟩ : t = d ∧ B = B' := by simpa using hC
        rw [ht, ht', hcnext]
        simp
      | cons e C =>
        obtain ⟨rfl, rfl⟩ : t = e ∧ B = C ++ d :: B' := by simpa using hC
        obtain ⟨hd, hd'⟩ := h (A ++ c :: C) d B' (by simp)
        have hdc : d ≠ c := by
          rintro rfl
          exact hcB (by simp)
        rw [hnext d (by simp), hprev d (by simp), if_neg hdc, hd, hcnext]
        refine ⟨rfl, ?_⟩
        cases C with
        | nil => simp
        | cons e C =>
          have hed : e ≠ d := by
            rintro rfl
            simp at hB
          rw [List.cons_append, List.head?_cons, if_neg (by simpa using hed), hd']
          simp
  · cases C with
    | nil =>
      obtain ⟨rfl, rfl⟩ : d = c ∧ B' = t :: B := by simpa using hC
      obtain ⟨-, hc'⟩ := h A' d B (by simp)
      have hself : B.head? ≠ some d := fun hb => hcB (List.mem_of_head? hb)
      rw [hnext d (by simp), hprev d (by simp), if_pos rfl, hcnext, if_neg hself, hc']
      simp
    | cons e C =>
      obtain ⟨rfl, rfl⟩ : d = e ∧ B' = C ++ c :: t :: B := by simpa using hC
      obtain ⟨hd, hd'⟩ := h A' d (C ++ c :: B) (by simp)
      have hdc : d ≠ c := hdisj d (by simp) c (by simp)
      have hhead : B.head? ≠ some d :=
        fun hb => hdisj d (by simp) d (List.mem_cons_of_mem c (List.mem_of_head? hb)) rfl
      rw [hnext d (by simp), hprev d (by simp), if_neg hdc, hcnext, if_neg hhead, hd, hd']
      refine ⟨?_, rfl⟩
      cases C with
      | nil => rfl
      | cons f C => rfl

-- ---------------------------------------------------------------------------
-- Rounds
-- ---------------------------------------------------------------------------

/-- `round` lists the nodes of `l` from the one after `c` around to `c`. -/
def RoundAt (l : List α) (c : α) (round : List α) : Prop :=
  ∃ A B, l = A ++ c :: B ∧ round = B ++ A ++ [c]

theorem RoundAt.perm (hr : RoundAt l c round) : round.Perm l := by
  obtain ⟨A, B, rfl, rfl⟩ := hr
  have hlast : (B ++ A ++ [c]).Perm (c :: (B ++ A)) := List.perm_append_comm
  have hswap : (c :: (B ++ A)).Perm (c :: (A ++ B)) := List.perm_append_comm.cons c
  exact (hlast.trans hswap).trans List.perm_middle.symm

theorem RoundAt.eq_rotate [DecidableEq α] (hr : RoundAt l c round) (hl : l.Nodup) :
    round = l.rotate (l.idxOf c + 1) := by
  obtain ⟨A, B, rfl, rfl⟩ := hr
  have hc : c ∉ A := fun hmem => List.disjoint_of_nodup_append hl hmem (List.mem_cons_self)
  rw [List.idxOf_append_of_notMem hc, List.idxOf_cons_self, Nat.add_zero]
  have hsplit : A ++ c :: B = (A ++ [c]) ++ B := by simp
  have hlen : A.length + 1 = (A ++ [c]).length := by simp
  rw [hsplit, hlen, List.rotate_append_length_eq, List.append_assoc]

theorem exists_roundAt (hc : c ∈ l) : ∃ round, RoundAt l c round := by
  obtain ⟨A, B, rfl⟩ := List.append_of_mem hc
  exact ⟨_, A, B, rfl, rfl⟩

/-- One move of the cursor: to the next node, or to the head from the last. -/
theorem RoundAt.move (hr : RoundAt l c round) (hl : Linked next h l) :
    ∃ x xs, round = x :: xs ∧ (next c).or h = some x ∧ RoundAt l x (xs ++ [x]) := by
  obtain ⟨A, B, rfl, rfl⟩ := hr
  rw [hl.next_eq, hl.head]
  cases B with
  | nil =>
    cases A with
    | nil => exact ⟨c, [], rfl, rfl, [], [], rfl, rfl⟩
    | cons a A => exact ⟨a, A ++ [c], rfl, rfl, [], A ++ [c], rfl, by simp⟩
  | cons b B => exact ⟨b, B ++ A ++ [c], by simp, rfl, A ++ [c], B, by simp, by simp⟩

end

end LinkedList
