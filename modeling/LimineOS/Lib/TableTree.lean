import Mathlib.Data.Option.Basic
import Mathlib.Logic.Function.Basic
import Mathlib.Order.Interval.Finset.Nat

/-!
# Trees of tables

A heap of tables: `cell a i` is the content of table `a` at index `i`, and
`next` reads from a content the table it points to, if it points to one. The
trail of a path is the contents met on the way down from a table.

A placement gives each table in use the root and the path under which it
stands, so no table stands in two places. Two operations keep it:

* `Placement.link` hangs an empty unused table below an empty cell; no trail
  down to the bottom changes, and one more path leads to a table.
* `Placement.store` writes a cell of a bottom table; the trail of one path
  under one root changes.
-/

namespace TableTree

section
variable {α ι κ : Type} {next : κ → Option α} {cell cell' : α → ι → κ}

def trail (next : κ → Option α) (cell : α → ι → κ) : α → List ι → Option (List κ)
  | _, [] => some []
  | a, i :: is => (next (cell a i)).bind fun b => (trail next cell b is).map (cell a i :: ·)

theorem trail_cons_some {a b : α} {i : ι} {is : List ι} (h : next (cell a i) = some b) :
    trail next cell a (i :: is) = (trail next cell b is).map (cell a i :: ·) := by
  rw [trail, h, Option.bind_some]

theorem trail_cons_none {a : α} {i : ι} {is : List ι} (h : next (cell a i) = none) :
    trail next cell a (i :: is) = none := by
  rw [trail, h, Option.bind_none]

def descend (next : κ → Option α) (cell : α → ι → κ) : α → List ι → Option α
  | a, [] => some a
  | a, i :: is => (next (cell a i)).bind fun b => descend next cell b is

theorem descend_append (a : α) (p q : List ι) :
    descend next cell a (p ++ q) = (descend next cell a p).bind fun b => descend next cell b q := by
  induction p generalizing a with
  | nil => rfl
  | cons i p ih =>
    rw [List.cons_append, descend, descend]
    cases next (cell a i) with
    | none => rfl
    | some b => exact ih b

/-- `place a` is the root and the path of table `a`. Only the tables above
`depth` point to tables. -/
structure Placement (next : κ → Option α) (cell : α → ι → κ) (depth : Nat)
    (place : α → Option (α × List ι)) : Prop where
  child {a b r : α} {p : List ι} {i : ι} : place a = some (r, p) → p.length < depth →
    next (cell a i) = some b → place b = some (r, p ++ [i])

variable {depth : Nat} {place : α → Option (α × List ι)} {a b f r r' : α} {p q is : List ι} {i : ι}

theorem Placement.trail_congr (h : Placement next cell depth place) (hb : place b = some (r, q))
    (hsame : ∀ a p i, place a = some (r, p) → p ++ [i] <+: q ++ is → cell' a i = cell a i)
    (hlen : q.length + is.length ≤ depth + 1) :
    trail next cell' b is = trail next cell b is := by
  induction is generalizing b q with
  | nil => rfl
  | cons j js ih =>
    have hhere : cell' b j = cell b j := hsame b q j hb ⟨js, by simp⟩
    rw [trail, trail, hhere]
    cases hn : next (cell b j) with
    | none => rfl
    | some c =>
      cases js with
      | nil => rfl
      | cons k ks =>
        simp only [List.length_cons] at hlen
        have hc : place c = some (r, q ++ [j]) := h.child hb (by omega) hn
        have hrest : trail next cell' c (k :: ks) = trail next cell c (k :: ks) := by
          refine ih hc (fun a p i ha hp => hsame a p i ha (by simpa using hp)) ?_
          simp only [List.length_append, List.length_cons, List.length_nil]
          omega
        simp only [Option.bind_some, hrest]

theorem Placement.descend_congr (h : Placement next cell depth place) (hb : place b = some (r, q))
    (hsame : ∀ a p i, place a = some (r, p) → p ++ [i] <+: q ++ is → cell' a i = cell a i)
    (hlen : q.length + is.length ≤ depth) : descend next cell' b is = descend next cell b is := by
  induction is generalizing b q with
  | nil => rfl
  | cons j js ih =>
    have hhere : cell' b j = cell b j := hsame b q j hb ⟨js, by simp⟩
    rw [descend, descend, hhere]
    cases hn : next (cell b j) with
    | none => rfl
    | some c =>
      simp only [List.length_cons] at hlen
      have hc : place c = some (r, q ++ [j]) := h.child hb (by omega) hn
      refine ih hc (fun a p i ha hp => hsame a p i ha (by simpa using hp)) ?_
      simp only [List.length_append, List.length_cons, List.length_nil]
      omega

theorem Placement.store (h : Placement next cell depth place) (ha : place a = some (r, p))
    (hp : p.length = depth) (hsame : ∀ b j, place b ≠ none → (b, j) ≠ (a, i) → cell' b j = cell b j) :
    Placement next cell' depth place where
  child {b c s q j} hb hq hn := by
    have hne : (b, j) ≠ (a, i) := by
      rintro ⟨⟩
      rw [ha] at hb
      cases hb
      omega
    rw [hsame b j (by simp [hb]) hne] at hn
    exact h.child hb hq hn

theorem Placement.descend_store (h : Placement next cell depth place) (ha : place a = some (r, p))
    (hp : p.length = depth) (hsame : ∀ b j, place b ≠ none → (b, j) ≠ (a, i) → cell' b j = cell b j)
    (hroot : place r' = some (r', [])) (hlen : is.length ≤ depth) :
    descend next cell' r' is = descend next cell r' is := by
  refine h.descend_congr hroot (fun c s j hc hs => hsame c j (by simp [hc]) ?_) (by simpa using hlen)
  rintro ⟨⟩
  rw [ha] at hc
  cases hc
  have hle := hs.length_le
  simp only [List.length_append, List.length_cons, List.length_nil] at hle
  omega

/-- A change of one cell leaves the tables on the paths that do not lead through it. -/
theorem Placement.descend_apart (h : Placement next cell depth place) (ha : place a = some (r, p))
    (hroot : place r = some (r, []))
    (hsame : ∀ b j, place b ≠ none → (b, j) ≠ (a, i) → cell' b j = cell b j)
    (hlen : is.length ≤ depth) (hnot : ¬p ++ [i] <+: is) :
    descend next cell' r is = descend next cell r is := by
  refine h.descend_congr hroot (fun c s j hc hs => hsame c j (by simp [hc]) ?_) (by simpa using hlen)
  rintro ⟨⟩
  rw [ha] at hc
  cases hc
  exact hnot hs

theorem not_concat_prefix : ¬p ++ [i] <+: p := fun h => by
  have hle := h.length_le
  simp only [List.length_append, List.length_cons, List.length_nil] at hle
  omega

/-- Hanging an empty table below an empty cell makes one more path lead to a table. -/
theorem Placement.descend_link (h : Placement next cell depth place) (ha : place a = some (r, p))
    (hroot : place r = some (r, [])) (hreach : descend next cell r p = some a)
    (hempty : next (cell a i) = none)
    (hsame : ∀ b j, place b ≠ none → (b, j) ≠ (a, i) → cell' b j = cell b j)
    (hlink : next (cell' a i) = some f) (hzero : ∀ j, next (cell' f j) = none) (hp : p.length ≤ depth)
    (hlen : is.length ≤ depth) :
    (descend next cell' r is).isSome ↔ (descend next cell r is).isSome ∨ is = p ++ [i] := by
  by_cases hthrough : p ++ [i] <+: is
  · obtain ⟨js, rfl⟩ := hthrough
    -- the path goes through the cell that was empty
    have hnone : descend next cell r (p ++ [i] ++ js) = none := by
      rw [List.append_assoc, descend_append, hreach, Option.bind_some, List.singleton_append,
        descend, hempty]
      rfl
    have hnew : descend next cell' r (p ++ [i] ++ js) = descend next cell' f js := by
      rw [List.append_assoc, descend_append, h.descend_apart ha hroot hsame hp not_concat_prefix,
        hreach, Option.bind_some, List.singleton_append, descend, hlink, Option.bind_some]
    rw [hnone, hnew]
    cases js with
    | nil => simp [descend]
    | cons j js => simp [descend, hzero j]
  · rw [h.descend_apart ha hroot hsame hlen hthrough]
    refine (or_iff_left ?_).symm
    rintro rfl
    exact hthrough (List.prefix_refl _)

theorem Placement.trail_store (h : Placement next cell depth place) (ha : place a = some (r, p))
    (hp : p.length = depth) (hsame : ∀ b j, place b ≠ none → (b, j) ≠ (a, i) → cell' b j = cell b j)
    (hb : place b = some (r', q)) (hlen : q.length + is.length = depth + 1)
    (hne : (r', q ++ is) ≠ (r, p ++ [i])) :
    trail next cell' b is = trail next cell b is := by
  refine h.trail_congr hb (fun c s j hc hs => hsame c j (by simp [hc]) ?_) hlen.le
  rintro ⟨⟩
  rw [ha] at hc
  cases hc
  have hfull : (p ++ [i]).length = (q ++ is).length := by
    simp only [List.length_append, List.length_cons, List.length_nil]
    omega
  exact hne (by rw [hs.eq_of_length hfull])

variable [DecidableEq α]

/-- The placement once `f` hangs below cell `i` of the table at `r`, `p`. -/
def hang (place : α → Option (α × List ι)) (f r : α) (p : List ι) (i : ι) : α → Option (α × List ι) :=
  Function.update place f (some (r, p ++ [i]))

@[simp] theorem hang_self : hang place f r p i f = some (r, p ++ [i]) := Function.update_self ..

theorem hang_of_placed (hf : place f = none) (hb : place b ≠ none) : hang place f r p i b = place b :=
  Function.update_of_ne (by rintro rfl; exact hb hf) ..

theorem hang_eq_some (h : hang place f r p i b = some x) (hb : b ≠ f) : place b = some x := by
  rwa [hang, Function.update_of_ne hb] at h

section link
variable (h : Placement next cell depth place) (ha : place a = some (r, p)) (hp : p.length < depth)
  (hempty : next (cell a i) = none)
  (hsame : ∀ b j, place b ≠ none → (b, j) ≠ (a, i) → cell' b j = cell b j)
  (hlink : next (cell' a i) = some f) (hzero : ∀ j, next (cell' f j) = none)
include h ha hsame hlink hzero

theorem Placement.link (hf : place f = none) : Placement next cell' depth (hang place f r p i) where
  child {b c s q j} hb hq hn := by
    rcases eq_or_ne b f with rfl | hbf
    · rw [hzero j] at hn
      simp at hn
    · have hb' := hang_eq_some hb hbf
      by_cases hbj : (b, j) = (a, i)
      · cases hbj
        rw [hlink] at hn
        rw [ha] at hb'
        cases hn
        cases hb'
        exact hang_self
      · rw [hsame b j (by simp [hb']) hbj] at hn
        have hc := h.child hb' hq hn
        rw [hang_of_placed hf (by simp [hc]), hc]

include hp hempty

theorem Placement.trail_link (hb : place b = some (r', q)) (hlen : q.length + is.length = depth + 1) :
    trail next cell' b is = trail next cell b is := by
  induction is generalizing b q with
  | nil => rfl
  | cons j js ih =>
    by_cases hbj : (b, j) = (a, i)
    · -- the new table is empty, and it is not at the bottom
      cases hbj
      rw [ha] at hb
      cases hb
      rw [trail_cons_none hempty, trail_cons_some hlink]
      cases js with
      | nil =>
        simp only [List.length_cons, List.length_nil] at hlen
        omega
      | cons k ks => rw [trail_cons_none (hzero k), Option.map_none]
    · have hhere := hsame b j (by simp [hb]) hbj
      cases hn : next (cell b j) with
      | none => rw [trail_cons_none hn, trail_cons_none (by rw [hhere, hn])]
      | some c =>
        rw [trail_cons_some hn, trail_cons_some (by rw [hhere, hn]), hhere]
        cases js with
        | nil => rfl
        | cons k ks =>
          simp only [List.length_cons] at hlen
          have hc := h.child hb (by omega) hn
          rw [ih hc (by simp only [List.length_append, List.length_cons, List.length_nil]; omega)]

end link

end

end TableTree
