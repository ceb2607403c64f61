import LimineOS.Lib.Occurrences
import LimineOS.Memmove
import Mathlib.Data.List.GetD

/-!
# `strremove`

`compare` looks for a prefix, `strstr` for the first occurrence, and `strremove`
moves the rest of the string over it. The next search begins where the occurrence
was, so the result is that of a scan from the left (`strremove_removed`). It reads
`sub` again for each search, and so `sub` must not be a part of `str`.
-/

namespace LimineOS

open ByteMemory Fueled Occurrences

def strlen (ram : Mem) (str : Nat) : Fueled Nat :=
  iterate (fun (str, i) => if ram str = 0 then .inr i else .inl (str + 1, i + 1)) (str, 0)

def compare (ram : Mem) (x y : Nat) : Fueled Bool :=
  iterate (fun (x, y) =>
    if ram x ≠ 0 ∧ ram y ≠ 0 then
      if ram x ≠ ram y then .inr false else .inl (x + 1, y + 1)
    else .inr (ram y == 0)) (x, y)

def strstrStep (ram : Mem) (y x : Nat) : Fueled (Nat ⊕ Option Nat) :=
  if ram x = 0 then pure (.inr none)
  else if ram x = ram y then do
    if ← compare ram x y then pure (.inr (some x)) else pure (.inl (x + 1))
  else pure (.inl (x + 1))

def strstr (ram : Mem) (x y : Nat) : Fueled (Option Nat) := iterateM (strstrStep ram y) x

def removeStep (sub len : Nat) : Store × Nat → Fueled (Store × Nat ⊕ Store)
  | (m, p) => do
    match ← strstr m.ram p sub with
    | none => pure (.inr m)
    | some p => do
      let n ← strlen m.ram (p + len)
      -- `memmove` takes an `unsigned int`
      let m ← memmove m p (p + len) (BitVec.ofNat 32 (n + 1))
      pure (.inl (m, p))

def strremove (m : Store) (str sub : Nat) : Fueled Store := do
  let len ← strlen m.ram sub
  if len > 0 then iterateM (removeStep sub len) (m, str) else pure m

/-- The string `x` at `p` has become the one without `y`, and nothing has been written
outside of it. -/
structure Removed (m : Store) (p : Nat) (x y : List Byte) (m' : Store) : Prop where
  string : IsStr (CStr.skip m'.ram p) (deleteAll y x)
  frame : Set.EqOn m'.ram m.ram (span p (x.length + 1))ᶜ
  writes : ∀ a ∈ m'.written, a ∈ m.written ∨ a ∈ span p (x.length + 1)

section
variable {ram ram' : Mem} {m m' : Store} {a p str sub : Nat} {x y u v : List Byte} {c : Byte}
  {s t : CStr}

-- ---------------------------------------------------------------------------
-- Strings in memory
-- ---------------------------------------------------------------------------

theorem skip_skip (s : CStr) (i j : Nat) : (s.skip i).skip j = s.skip (i + j) := by
  funext k
  rw [CStr.skip, CStr.skip, CStr.skip, Nat.add_assoc]

theorem IsStr.at_drop {k : Nat} (h : IsStr (CStr.skip ram a) x) (hk : k ≤ x.length) :
    IsStr (CStr.skip ram (a + k)) (x.drop k) := skip_skip ram a k ▸ h.skip hk

theorem IsStr.at_tail (h : IsStr (CStr.skip ram a) (c :: x)) : IsStr (CStr.skip ram (a + 1)) x :=
  h.at_drop (Nat.succ_pos _)

theorem IsStr.at_head (h : IsStr (CStr.skip ram a) (c :: x)) : ram a = c ∧ c ≠ 0 :=
  ⟨h.chars 0 (Nat.zero_le _), List.ne_of_not_mem_cons h.noNul |>.symm⟩

theorem IsStr.at_end (h : IsStr (CStr.skip ram a) []) : ram a = 0 := h.end_eq_zero

theorem IsStr.congr (h : IsStr s x) (heq : ∀ i ≤ x.length, t i = s i) : IsStr t x :=
  ⟨h.noNul, fun i hi => (heq i hi).trans (h.chars i hi)⟩

theorem IsStr.at_congr (h : IsStr (CStr.skip ram a) x)
    (heq : Set.EqOn ram' ram (span a (x.length + 1))) :
    IsStr (CStr.skip ram' a) x := h.congr fun i hi => heq ⟨Nat.le_add_right a i, by omega⟩

theorem IsStr.append (hu : 0 ∉ u) (hchars : ∀ i < u.length, s i = u.getD i 0)
    (hv : IsStr (s.skip u.length) v) :
    IsStr s (u ++ v) := by
  refine ⟨fun hmem => (List.mem_append.mp hmem).elim hu hv.noNul, fun i hi => ?_⟩
  rw [List.length_append] at hi
  rcases Nat.lt_or_ge i u.length with hlt | hge
  · rw [hchars i hlt, List.getD_append _ _ _ _ hlt]
  · have hrest := hv.chars (i - u.length) (by omega)
    rw [CStr.skip, Nat.add_sub_cancel' hge] at hrest
    rw [hrest, List.getD_append_right _ _ _ _ hge]

-- ---------------------------------------------------------------------------
-- The searches
-- ---------------------------------------------------------------------------

theorem strlen_ends (h : IsStr (CStr.skip ram a) x) : Ends (strlen ram a) fun n => n = x.length := by
  have hfrom : ∀ i,
      Ends (iterate (fun (str, i) => if ram str = 0 then .inr i else .inl (str + 1, i + 1)) (a, i))
        fun n => n = i + x.length := by
    induction x generalizing a with
    | nil => exact fun i => ends_iterate_inr (if_pos h.at_end) rfl
    | cons c x ih =>
      intro i
      obtain ⟨hc, hne⟩ := h.at_head
      refine ends_iterate_inl (if_neg (hc ▸ hne)) ((ih h.at_tail (i + 1)).mono fun n hn => ?_)
      rw [hn, List.length_cons]
      omega
  exact (hfrom 0).mono fun n hn => hn.trans (Nat.zero_add _)

theorem compare_ends (hx : IsStr (CStr.skip ram a) x) (hy : IsStr (CStr.skip ram sub) y) :
    Ends (compare ram a sub) fun r => r = decide (y <+: x) := by
  induction x generalizing a sub y with
  | nil =>
    refine ends_iterate_inr (if_neg fun hand => hand.1 hx.at_end) ?_
    cases y with
    | nil => simp [hy.at_end]
    | cons c y =>
      obtain ⟨hc, hne⟩ := hy.at_head
      simpa [hc] using hne
  | cons c x ih =>
    obtain ⟨hc, hne⟩ := hx.at_head
    cases y with
    | nil =>
      refine ends_iterate_inr (if_neg fun hand => hand.2 hy.at_end) ?_
      simp [hy.at_end]
    | cons d y =>
      obtain ⟨hd, hne'⟩ := hy.at_head
      have hboth : ram a ≠ 0 ∧ ram sub ≠ 0 := ⟨hc ▸ hne, hd ▸ hne'⟩
      by_cases heq : ram a = ram sub
      · refine ends_iterate_inl ((if_pos hboth).trans (if_neg (not_not.mpr heq)))
          ((ih hx.at_tail hy.at_tail).mono fun r hr => ?_)
        simp [hr, List.cons_prefix_cons, ← hc, ← hd, heq]
      · refine ends_iterate_inr ((if_pos hboth).trans (if_pos heq)) ?_
        simp [List.cons_prefix_cons, ← hc, ← hd, Ne.symm heq]

theorem strstrStep_ends (hx : IsStr (CStr.skip ram a) (c :: x)) (hy : IsStr (CStr.skip ram sub) y)
    (hne : y ≠ []) :
    Ends (strstrStep ram sub a) fun r => r = if y <+: c :: x then .inr (some a) else .inl (a + 1) := by
  obtain ⟨hc, hzero⟩ := hx.at_head
  rw [strstrStep, if_neg (hc ▸ hzero)]
  by_cases heq : ram a = ram sub
  · rw [if_pos heq]
    refine (compare_ends hx hy).bind ?_
    rintro _ rfl
    by_cases hprefix : y <+: c :: x
    · rw [if_pos hprefix, if_pos (decide_eq_true hprefix)]
      exact ends_pure rfl
    · rw [if_neg hprefix, if_neg (by simpa using hprefix)]
      exact ends_pure rfl
  · have hprefix : ¬y <+: c :: x := by
      cases y with
      | nil => exact absurd rfl hne
      | cons d y =>
        rw [List.cons_prefix_cons, ← hc, ← hy.at_head.1]
        exact fun hand => heq hand.1.symm
    rw [if_neg heq, if_neg hprefix]
    exact ends_pure rfl

theorem strstr_ends (hx : IsStr (CStr.skip ram a) x) (hy : IsStr (CStr.skip ram sub) y) (hne : y ≠ []) :
    Ends (strstr ram a sub) fun r => r = (first y x).map (a + ·) := by
  induction x generalizing a with
  | nil =>
    have hstep : strstrStep ram sub a = pure (.inr none) := if_pos hx.at_end
    refine Ends.iterateM (R := (· = .inr none)) (hstep ▸ ends_pure rfl) ?_
    rintro _ rfl
    rfl
  | cons c x ih =>
    refine (strstrStep_ends hx hy hne).iterateM ?_
    rintro _ rfl
    by_cases hprefix : y <+: c :: x
    · rw [if_pos hprefix, first, if_pos hprefix]
      rfl
    · rw [if_neg hprefix, first, if_neg hprefix]
      refine (ih hx.at_tail).mono fun r hr => ?_
      rw [hr, Option.map_map]
      exact Option.map_congr fun k _ => by simp [Nat.add_assoc, Nat.add_comm 1]

-- ---------------------------------------------------------------------------
-- The loop
-- ---------------------------------------------------------------------------

theorem removeStep_ends {k : Nat} (hx : IsStr (CStr.skip m.ram p) x)
    (hy : IsStr (CStr.skip m.ram sub) y) (hne : y ≠ [])
    (hfirst : first y x = some k) (hlen : x.length + 1 < 2 ^ 32) :
    Ends (removeStep sub y.length (m, p)) fun r =>
      ∃ m', r = .inl (m', p + k) ∧
      Moved m (p + k) (p + k + y.length) ((x.drop (k + y.length)).length + 1) m' := by
  obtain ⟨hk, hoccurs, -⟩ := first_eq_some_iff.mp hfirst
  have hfits := hoccurs.length_le
  rw [List.length_drop] at hfits
  have hrest : IsStr (CStr.skip m.ram (p + k + y.length)) (x.drop (k + y.length)) := by
    rw [Nat.add_assoc]
    exact hx.at_drop (by omega)
  refine (strstr_ends hx hy hne).bind ?_
  rintro _ rfl
  rw [hfirst]
  refine (strlen_ends hrest).bind ?_
  rintro _ rfl
  refine (moves_of_le (Nat.le_add_right (p + k) y.length)).bind fun m' hmoved => ends_pure ⟨m', rfl, ?_⟩
  rwa [BitVec.toNat_ofNat, Nat.mod_eq_of_lt] at hmoved
  rw [List.length_drop]
  omega

theorem Moved.string {k len : Nat}
    (h : Moved m (p + k) (p + k + len) ((x.drop (k + len)).length + 1) m')
    (hx : IsStr (CStr.skip m.ram p) x) (hk : k + len ≤ x.length) :
    IsStr (CStr.skip m'.ram (p + k)) (x.drop (k + len)) := by
  have hrest : IsStr (CStr.skip m.ram (p + (k + len))) (x.drop (k + len)) := hx.at_drop hk
  refine hrest.congr fun i hi => ?_
  rw [CStr.skip, h.copied i (by omega), CStr.skip]
  exact congrArg m.ram (by omega)

theorem Removed.of_moved {k : Nat} {m'' : Store}
    (h : Removed m' (p + k) (x.drop (k + y.length)) y m'')
    (hmoved : Moved m (p + k) (p + k + y.length) ((x.drop (k + y.length)).length + 1) m')
    (hx : IsStr (CStr.skip m.ram p) x) (hne : y ≠ []) (hfirst : first y x = some k)
    (hfits : k + y.length ≤ x.length) :
    Removed m p x y m'' := by
  have hsub : span (p + k) ((x.drop (k + y.length)).length + 1) ⊆ span p (x.length + 1) := by
    refine span_subset (Nat.le_add_right p k) ?_
    rw [List.length_drop]
    omega
  have hframe : Set.EqOn m''.ram m.ram (span (p + k) ((x.drop (k + y.length)).length + 1))ᶜ :=
    h.frame.trans hmoved.frame
  have htake : (x.take k).length = k := by
    rw [List.length_take]
    omega
  refine ⟨?_, hframe.mono (Set.compl_subset_compl.mpr hsub), fun a ha => ?_⟩
  · rw [deleteAll_of_some hne hfirst]
    refine IsStr.append (fun hmem => hx.noNul (List.mem_of_mem_take hmem)) (fun i hi => ?_) ?_
    · rw [htake] at hi
      have hbefore : p + i ∈ (span (p + k) ((x.drop (k + y.length)).length + 1))ᶜ := fun hmem => by
        have := hmem.1
        omega
      have hchar : m.ram (p + i) = x.getD i 0 := hx.chars i (by omega)
      rw [CStr.skip, hframe hbefore, hchar, List.getD_eq_getElem?_getD, List.getD_eq_getElem?_getD,
        List.getElem?_take_of_lt hi]
    · rw [skip_skip, htake]
      exact h.string
  · rcases h.writes a ha with ha | ha
    · exact (hmoved.writes a ha).imp_right fun ha => hsub ha
    · exact .inr (hsub ha)

theorem removeAll_removed (hx : IsStr (CStr.skip m.ram p) x) (hy : IsStr (CStr.skip m.ram sub) y)
    (hne : y ≠ [])
    (hapart : Disjoint (span sub (y.length + 1)) (span p (x.length + 1)))
    (hlen : x.length + 1 < 2 ^ 32) :
    Ends (iterateM (removeStep sub y.length) (m, p)) (Removed m p x y) := by
  induction hn : x.length using Nat.strongRecOn generalizing m p x with
  | ind n ih =>
    cases hfirst : first y x with
    | none =>
      have hstep : Ends (removeStep sub y.length (m, p)) fun r => r = .inr m := by
        refine (strstr_ends hx hy hne).bind ?_
        rintro _ rfl
        rw [hfirst]
        exact ends_pure rfl
      refine hstep.iterateM ?_
      rintro _ rfl
      refine ⟨?_, fun _ _ => rfl, fun _ ha => .inl ha⟩
      rwa [deleteAll_of_none hfirst]
    | some k =>
      obtain ⟨hk, hoccurs, -⟩ := first_eq_some_iff.mp hfirst
      have hfits := hoccurs.length_le
      rw [List.length_drop] at hfits
      have hpos := List.length_pos_of_ne_nil hne
      have hdrop : (x.drop (k + y.length)).length = x.length - (k + y.length) := List.length_drop
      refine (removeStep_ends hx hy hne hfirst hlen).iterateM ?_
      rintro _ ⟨m', rfl, hmoved⟩
      have hapart' : Disjoint (span sub (y.length + 1))
          (span (p + k) ((x.drop (k + y.length)).length + 1)) :=
        hapart.mono_right (span_subset (Nat.le_add_right p k) (by omega))
      have hy' : IsStr (CStr.skip m'.ram sub) y :=
        hy.at_congr (hmoved.frame.mono (Set.disjoint_left.mp hapart'))
      refine (ih _ (by omega) (hmoved.string hx (by omega)) hy' hapart' (by omega) rfl).mono
        fun m'' h => ?_
      exact h.of_moved hmoved hx hne hfirst (by omega)

/-- For a pattern apart from the string, of any length. -/
theorem strremove_removed (hx : IsStr (CStr.skip m.ram str) x) (hy : IsStr (CStr.skip m.ram sub) y)
    (hlen : x.length + 1 < 2 ^ 32)
    (hapart : Disjoint (span sub (y.length + 1)) (span str (x.length + 1))) :
    Ends (strremove m str sub) (Removed m str x y) ∧
      (y ≠ [] → Ends (strstr m.ram str sub) fun r => r = (first y x).map (str + ·)) := by
  refine ⟨(strlen_ends hy).bind ?_, strstr_ends hx hy⟩
  rintro _ rfl
  cases y with
  | nil =>
    refine ends_pure ⟨?_, fun _ _ => rfl, fun _ ha => .inl ha⟩
    rwa [deleteAll_nil]
  | cons c y => exact removeAll_removed hx hy (List.cons_ne_nil c y) hapart hlen

end

-- ---------------------------------------------------------------------------
-- A pattern in the string
-- ---------------------------------------------------------------------------

def bytesAt (a : Nat) (x : List Byte) : Mem := fun i => if a ≤ i then x.getD (i - a) 0 else 0

theorem strremove_abcab :
    Ends (strremove { ram := bytesAt 100 [0x61, 0x62, 0x63, 0x61, 0x62, 0, 0x61, 0x62] } 100 106)
      (Removed { ram := bytesAt 100 [0x61, 0x62, 0x63, 0x61, 0x62, 0, 0x61, 0x62] } 100
        [0x61, 0x62, 0x63, 0x61, 0x62]
        [0x61, 0x62]) :=
  (strremove_removed ⟨by decide, by decide⟩ ⟨by decide, by decide⟩ (by decide)
    (span_disjoint (.inr (by decide)))).1

theorem strstr_emptied {ram : Mem} {a : Nat} (hchar : ram a ≠ 0) (hend : ram (a + 1) = 0) :
    Ends (strstr ram a (a + 1)) fun r => r = none := by
  have hfirst : strstrStep ram (a + 1) a = pure (.inl (a + 1)) := by
    rw [strstrStep, if_neg hchar, if_neg (by rwa [hend])]
  have hsecond : strstrStep ram (a + 1) (a + 1) = pure (.inr none) := if_pos hend
  refine Ends.iterateM (R := (· = .inl (a + 1))) (hfirst ▸ ends_pure rfl) ?_
  rintro _ rfl
  refine Ends.iterateM (R := (· = .inr none)) (hsecond ▸ ends_pure rfl) ?_
  rintro _ rfl
  rfl

/-- "aa" with its second character as the pattern, which is the NUL after a round. -/
theorem strremove_not_removed :
    ¬Ends (strremove { ram := bytesAt 100 [0x61, 0x61] } 100 101)
      (Removed { ram := bytesAt 100 [0x61, 0x61] } 100 [0x61, 0x61] [0x61]) := by
  intro hends
  have hx : IsStr (CStr.skip (bytesAt 100 [0x61, 0x61]) 100) [0x61, 0x61] := ⟨by decide, by decide⟩
  have hy : IsStr (CStr.skip (bytesAt 100 [0x61, 0x61]) 101) [0x61] := ⟨by decide, by decide⟩
  have hstays : Ends (strremove { ram := bytesAt 100 [0x61, 0x61] } 100 101) fun m' =>
      m'.ram 100 = 0x61 := by
    refine (strlen_ends hy).bind ?_
    rintro _ rfl
    refine (removeStep_ends hx hy (by decide) (k := 0) (by decide) (by decide)).iterateM ?_
    rintro _ ⟨m', rfl, hmoved⟩
    have hfirst : m'.ram 100 = 0x61 := hmoved.copied 0 (by decide)
    have hsecond : m'.ram 101 = 0 := hmoved.copied 1 (by decide)
    have hround : Ends (removeStep 101 1 (m', 100)) fun r => r = .inr m' := by
      refine (strstr_emptied (a := 100) (by rw [hfirst]; decide) hsecond).bind ?_
      rintro _ rfl
      exact ends_pure rfl
    refine hround.iterateM ?_
    rintro _ rfl
    exact hfirst
  obtain ⟨_, m', ⟨hremoved, hchar⟩, -⟩ := hends.and hstays
  have hstring := hremoved.string
  rw [show deleteAll [0x61] [0x61, 0x61] = ([] : List Byte) by simp [deleteAll]] at hstring
  exact absurd (hchar.symm.trans hstring.at_end) (by decide)

end LimineOS
