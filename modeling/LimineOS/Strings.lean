import LimineOS.Lib.Fuel
import LimineOS.Util
import Mathlib.Data.Int.Order.Basic

/-!
# String comparison

`strncmp` and `strcmp` end with equality at the first NUL of either string, so
that a string is equal to its prefixes. Against the C standard they are right
exactly where neither string is a proper prefix of the other within the
characters that count (`comparison_iff`).
-/

namespace LimineOS

open ByteMemory Fueled

/-- The loop has no bound. -/
def strcmp (s1 s2 : CStr) : Fueled Int :=
  iterate (fun (s1, s2) =>
    let u1 := s1 0
    let u2 := s2 0
    if u1 = 0 ∨ u2 = 0 then .inr 0
    else if u1 ≠ u2 then .inr (u1.toNat - u2.toNat : Int)
    else .inl (CStr.skip s1 1, CStr.skip s2 1)) (s1, s2)

def charAt (x : List Byte) (i : Nat) : Nat := (x.getD i 0).toNat

/-- What the standard says of a comparison of the characters that count: zero for
equality, and else the sign of the first difference. -/
structure Standard (counts : Nat → Prop) (x y : List Byte) (r : Int) : Prop where
  zero : r = 0 ↔ ∀ i, counts i → charAt x i = charAt y i
  sign : ∀ i, counts i → (∀ k < i, charAt x k = charAt y k) → charAt x i ≠ charAt y i →
    r.sign = (charAt x i - charAt y i : Int).sign

structure Compared (counts : Nat → Prop) (x y : List Byte) (r : Int) : Prop where
  zero : r = 0 ↔ ∀ i, counts i → i < x.length → i < y.length → charAt x i = charAt y i
  first : ∀ i, counts i → i < x.length → i < y.length → (∀ k < i, charAt x k = charAt y k) →
    charAt x i ≠ charAt y i → r = charAt x i - charAt y i

def Cut (counts : Nat → Prop) (x y : List Byte) : Prop := x <+: y ∧ x ≠ y ∧ counts x.length

section
variable {s t u : CStr} {x y z : List Byte} {n i : Nat} {counts : Nat → Prop}

-- ---------------------------------------------------------------------------
-- Padded strings
-- ---------------------------------------------------------------------------

theorem charAt_eq_iff : charAt x i = charAt y i ↔ x.getD i 0 = y.getD i 0 := BitVec.toNat_inj

theorem charAt_of_length_le (h : x.length ≤ i) : charAt x i = 0 := by
  rw [charAt, List.getD_eq_getElem?_getD, List.getElem?_eq_none h]
  rfl

theorem charAt_ne_zero (hx : 0 ∉ x) (hi : i < x.length) : charAt x i ≠ 0 := by
  rw [charAt, List.getD_eq_getElem?_getD, List.getElem?_eq_getElem hi, Option.getD_some]
  intro hzero
  have hmem := List.getElem_mem hi
  rw [BitVec.eq_of_toNat_eq (y := 0) hzero] at hmem
  exact hx hmem

theorem charAt_eq_zero_iff (hx : 0 ∉ x) : charAt x i = 0 ↔ x.length ≤ i :=
  ⟨fun h => Nat.le_of_not_lt fun hi => charAt_ne_zero hx hi h, charAt_of_length_le⟩

theorem IsStr.toNat_eq (h : IsStr s x) (hi : i ≤ x.length) : (s i).toNat = charAt x i :=
  congrArg _ (h.chars i hi)

theorem prefix_iff_charAt (hx : 0 ∉ x) : x <+: y ↔ ∀ i < x.length, charAt x i = charAt y i := by
  rw [prefix_iff_getElem?]
  refine forall₂_congr fun i hi => ?_
  have hne := charAt_ne_zero hx hi
  rw [charAt_eq_iff, List.getD_eq_getElem?_getD, List.getD_eq_getElem?_getD,
    List.getElem?_eq_getElem hi]
  rw [charAt, List.getD_eq_getElem?_getD, List.getElem?_eq_getElem hi] at hne
  cases y[i]? with
  | none =>
    refine iff_of_false (by simp) fun hzero => hne ?_
    rw [hzero]
    rfl
  | some c => simp [eq_comm]

theorem cut_of_first (hx : 0 ∉ x) (hy : 0 ∉ y) (hi : counts i)
    (hbefore : ∀ k < i, charAt x k = charAt y k)
    (hend : x.length ≤ i) (hne : charAt x i ≠ charAt y i) : Cut counts x y := by
  rw [charAt_of_length_le hend] at hne
  have hlen : i = x.length := by
    by_contra hlt
    have hlast := hbefore x.length (by omega)
    rw [charAt_of_length_le (le_refl _), eq_comm, charAt_eq_zero_iff hy] at hlast
    exact hne (charAt_of_length_le (by omega)).symm
  subst hlen
  refine ⟨(prefix_iff_charAt hx).mpr hbefore, ?_, hi⟩
  rintro rfl
  exact hne (charAt_of_length_le (le_refl _)).symm

theorem Cut.first (hx : 0 ∉ x) (hy : 0 ∉ y) (h : Cut counts x y) :
    (∀ k < x.length, charAt x k = charAt y k) ∧ charAt x x.length = 0 ∧ charAt y x.length ≠ 0 := by
  obtain ⟨hinit, hne, -⟩ := h
  refine ⟨(prefix_iff_charAt hx).mp hinit, charAt_of_length_le (le_refl _), fun hzero => hne ?_⟩
  rw [charAt_eq_zero_iff hy] at hzero
  exact hinit.eq_of_length (Nat.le_antisymm hinit.length_le hzero)

-- ---------------------------------------------------------------------------
-- Against the standard
-- ---------------------------------------------------------------------------

theorem Compared.not_standard_of_cut {r : Int} (h : Compared counts x y r) (hx : 0 ∉ x) (hy : 0 ∉ y)
    (hcut : Cut counts x y ∨ Cut counts y x) : ¬Standard counts x y r := by
  intro hstd
  rcases hcut with hcut | hcut
  · obtain ⟨hbefore, hend, hne⟩ := hcut.first hx hy
    have hzero : r = 0 := h.zero.mpr fun i _ hi _ => hbefore i hi
    exact hne ((hstd.zero.mp hzero x.length hcut.2.2).symm.trans hend)
  · obtain ⟨hbefore, hend, hne⟩ := hcut.first hy hx
    have hzero : r = 0 := h.zero.mpr fun i _ _ hi => (hbefore i hi).symm
    exact hne ((hstd.zero.mp hzero y.length hcut.2.2).trans hend)

theorem first_lt (hx : 0 ∉ x) (hy : 0 ∉ y) (hcut : ¬Cut counts x y ∧ ¬Cut counts y x) (hi : counts i)
    (hbefore : ∀ k < i, charAt x k = charAt y k) (hne : charAt x i ≠ charAt y i) :
    i < x.length ∧ i < y.length := by
  constructor
  · by_contra hge
    exact hcut.1 (cut_of_first hx hy hi hbefore (Nat.le_of_not_lt hge) hne)
  · by_contra hge
    exact hcut.2
      (cut_of_first hy hx hi (fun k hk => (hbefore k hk).symm) (Nat.le_of_not_lt hge) hne.symm)

theorem Compared.standard_iff {r : Int} (h : Compared counts x y r) (hx : 0 ∉ x) (hy : 0 ∉ y)
    (hcounts : ∀ i, counts i → ∀ k < i, counts k) :
    Standard counts x y r ↔ ¬Cut counts x y ∧ ¬Cut counts y x := by
  constructor
  · intro hstd
    exact ⟨fun hcut => h.not_standard_of_cut hx hy (.inl hcut) hstd,
      fun hcut => h.not_standard_of_cut hx hy (.inr hcut) hstd⟩
  · intro hcut
    refine ⟨⟨fun hzero i => ?_, fun hall => h.zero.mpr fun i hi _ _ => hall i hi⟩, ?_⟩
    · induction i using Nat.strongRecOn with
      | ind i ih =>
        intro hi
        by_contra hne
        obtain ⟨hix, hiy⟩ := first_lt hx hy hcut hi (fun k hk => ih k hk (hcounts i hi k hk)) hne
        exact hne (h.zero.mp hzero i hi hix hiy)
    · intro i hi hbefore hne
      obtain ⟨hix, hiy⟩ := first_lt hx hy hcut hi hbefore hne
      rw [h.first i hi hix hiy hbefore hne]

-- ---------------------------------------------------------------------------
-- The loops
-- ---------------------------------------------------------------------------

theorem strncmp_first (hi : i < n) (hbefore : ∀ k < i, s k = t k)
    (hchars : ∀ k ≤ i, s k ≠ 0 ∧ t k ≠ 0) (hne : s i ≠ t i) :
    strncmp s t n = (s i).toNat - (t i).toNat := by
  induction n generalizing s t i with
  | zero => omega
  | succ n ih =>
    rw [strncmp, if_neg (not_or.mpr (hchars 0 (Nat.zero_le i)))]
    cases i with
    | zero => rw [if_pos hne]
    | succ i =>
      rw [if_neg (not_not.mpr (hbefore 0 (Nat.succ_pos i))), ih (Nat.lt_of_succ_lt_succ hi)]
      · rw [CStr.skip, CStr.skip, Nat.add_comm]
      · intro k hk
        rw [CStr.skip, CStr.skip, Nat.add_comm]
        exact hbefore (k + 1) (Nat.succ_lt_succ hk)
      · intro k hk
        rw [CStr.skip, CStr.skip, Nat.add_comm]
        exact hchars (k + 1) (Nat.succ_le_succ hk)
      · rw [CStr.skip, CStr.skip, Nat.add_comm]
        exact hne

theorem strncmp_swap (s t : CStr) (n : Nat) : strncmp t s n = -strncmp s t n := by
  induction n generalizing s t with
  | zero => rfl
  | succ n ih =>
    rw [strncmp, strncmp]
    simp only [or_comm (a := t 0 = 0), ne_comm (a := t 0)]
    split_ifs
    · rfl
    · omega
    · exact ih _ _

theorem IsStr.chars_ne_zero_iff (h : IsStr s x) : (∀ k ≤ i, s k ≠ 0) ↔ i < x.length := by
  constructor
  · intro hall
    by_contra hge
    exact hall x.length (Nat.le_of_not_lt hge) h.end_eq_zero
  · intro hi k hk
    exact h.ne_zero (Nat.lt_of_le_of_lt hk hi)

theorem IsStr.eq_iff (hs : IsStr s x) (ht : IsStr t y) (hx : i ≤ x.length) (hy : i ≤ y.length) :
    s i = t i ↔ charAt x i = charAt y i := by
  rw [hs.chars i hx, ht.chars i hy, charAt_eq_iff]

theorem strncmp_compared (hs : IsStr s x) (ht : IsStr t y) : Compared (· < n) x y (strncmp s t n) := by
  have hchars : ∀ i, (∀ k ≤ i, s k ≠ 0 ∧ t k ≠ 0) ↔ i < x.length ∧ i < y.length := by
    intro i
    rw [← hs.chars_ne_zero_iff, ← ht.chars_ne_zero_iff]
    simp only [forall_and]
  constructor
  · rw [strncmp_eq_zero_iff]
    refine forall₂_congr fun i _ => ?_
    rw [hchars, and_imp]
    refine forall₂_congr fun hx hy => ?_
    exact hs.eq_iff ht hx.le hy.le
  · intro i hi hx hy hbefore hne
    rw [strncmp_first hi (fun k hk => ?_) ((hchars i).mpr ⟨hx, hy⟩)
      (mt (hs.eq_iff ht hx.le hy.le).mp hne), hs.toNat_eq hx.le, ht.toNat_eq hy.le]
    exact (hs.eq_iff ht (by omega) (by omega)).mpr (hbefore k hk)

/-- `strcmp` is `strncmp` with a bound that it does not reach. -/
theorem strcmp_ends (hs : IsStr s x) (ht : IsStr t y) (hn : x.length < n) :
    Ends (strcmp s t) fun r => r = strncmp s t n := by
  induction x generalizing s t y n with
  | nil =>
    obtain ⟨n, rfl⟩ := Nat.exists_eq_add_of_le' (Nat.lt_of_le_of_lt (Nat.zero_le _) hn)
    refine ends_iterate_inr (if_pos (.inl hs.end_eq_zero)) ?_
    rw [strncmp, if_pos (.inl hs.end_eq_zero)]
  | cons c x ih =>
    obtain ⟨n, rfl⟩ := Nat.exists_eq_add_of_le' (Nat.lt_of_le_of_lt (Nat.zero_le _) hn)
    by_cases hnul : s 0 = 0 ∨ t 0 = 0
    · refine ends_iterate_inr (if_pos hnul) ?_
      rw [strncmp, if_pos hnul]
    · by_cases hne : s 0 ≠ t 0
      · refine ends_iterate_inr ((if_neg hnul).trans (if_pos hne)) ?_
        rw [strncmp, if_neg hnul, if_pos hne]
      · refine ends_iterate_inl ((if_neg hnul).trans (if_neg hne)) ?_
        rw [strncmp, if_neg hnul, if_neg hne]
        cases y with
        | nil => exact absurd (.inr ht.end_eq_zero) hnul
        | cons c' y =>
          exact ih (hs.skip (Nat.succ_pos _)) (ht.skip (Nat.succ_pos _)) (Nat.lt_of_succ_lt_succ hn)

theorem strcmp_compared (hs : IsStr s x) (ht : IsStr t y) :
    Ends (strcmp s t) (Compared (fun _ => True) x y) := by
  refine (strcmp_ends hs ht (Nat.lt_succ_self _)).mono ?_
  rintro r rfl
  obtain ⟨hzero, hfirst⟩ := strncmp_compared (n := x.length + 1) hs ht
  refine ⟨hzero.trans (forall_congr' fun i => ?_), fun i _ hx => hfirst i (by omega) hx⟩
  refine ⟨fun h _ hx => h (by omega) hx, fun h _ => h trivial⟩

/-- Each comparison is the standard's exactly without a cut, a swap of the arguments
negates it, and without cuts equality is transitive. -/
theorem comparison_iff (hs : IsStr s x) (ht : IsStr t y) (hu : IsStr u z) :
    (Standard (· < n) x y (strncmp s t n) ↔ ¬Cut (· < n) x y ∧ ¬Cut (· < n) y x) ∧
    (Ends (strcmp s t) (Standard (fun _ => True) x y) ↔
      ¬Cut (fun _ => True) x y ∧ ¬Cut (fun _ => True) y x) ∧
    strncmp t s n = -strncmp s t n ∧
    Ends (strcmp s t) (fun r => Ends (strcmp t s) (· = -r)) ∧
    (¬Cut (· < n) x y ∧ ¬Cut (· < n) y x → ¬Cut (· < n) y z ∧ ¬Cut (· < n) z y →
      strncmp s t n = 0 → strncmp t u n = 0 → strncmp s u n = 0) := by
  have hlt : ∀ i, i < n → ∀ k < i, k < n := fun i hi k hk => hk.trans hi
  refine ⟨(strncmp_compared hs ht).standard_iff hs.noNul ht.noNul hlt, ⟨?_, ?_⟩, strncmp_swap s t n,
    ?_, ?_⟩
  · intro hends
    obtain ⟨_, r, ⟨hstd, hcompared⟩, -⟩ := hends.and (strcmp_compared hs ht)
    exact (hcompared.standard_iff hs.noNul ht.noNul fun _ _ _ _ => trivial).mp hstd
  · intro hcut
    refine (strcmp_compared hs ht).mono fun r hcompared => ?_
    exact (hcompared.standard_iff hs.noNul ht.noNul fun _ _ _ _ => trivial).mpr hcut
  · refine (strcmp_ends (n := x.length + y.length + 1) hs ht (by omega)).mono ?_
    rintro r rfl
    rw [← strncmp_swap]
    exact strcmp_ends ht hs (by omega)
  · intro hxy hyz hst htu
    have hstd := ((strncmp_compared hs ht).standard_iff hs.noNul ht.noNul hlt).mpr hxy
    have hstd' := ((strncmp_compared ht hu).standard_iff ht.noNul hu.noNul hlt).mpr hyz
    exact (strncmp_compared hs hu).zero.mpr fun i hi _ _ =>
      (hstd.zero.mp hst i hi).trans (hstd'.zero.mp htu i hi)

end

theorem comparison_ab :
    Standard (· < 8) ([0x61, 0x62] : List Byte) [0x61, 0x63]
      (strncmp (cstr [0x61, 0x62]) (cstr [0x61, 0x63]) 8) :=
  (comparison_iff (isStr_cstr (by decide)) (isStr_cstr (by decide))
    (isStr_cstr (x := []) (by decide))).1.mpr (by
    simp [Cut])

/-- A string is taken for its prefix. -/
theorem strncmp_not_standard :
    ¬Standard (· < 8) ([0x61] : List Byte) [0x61, 0x62] (strncmp (cstr [0x61]) (cstr [0x61, 0x62]) 8) :=
  fun h => absurd (h.zero.mp rfl 1 (by decide)) (by decide)

end LimineOS
