import LimineOS.Lib.ByteMemory
import Mathlib.Tactic.SplitIfs

/-!
# Machine integers and the string and memory loops of `util.h`

Unsigned 64-bit values are naturals, reduced by `u64` and `subU64` wherever
the source's arithmetic can wrap. RAM is indexed by physical address: the
kernel reaches it through the direct map, so the source's pointer
`p + hhdm_req.response->offset` is the address `p` here.
-/

namespace LimineOS

open ByteMemory

def u64 (n : Nat) : Nat := n % 2 ^ 64

def subU64 (a b : Nat) : Nat := (a + (2 ^ 64 - b % 2 ^ 64)) % 2 ^ 64

@[simp] theorem u64_of_lt (h : n < 2 ^ 64) : u64 n = n := Nat.mod_eq_of_lt h

theorem u64_lt (n : Nat) : u64 n < 2 ^ 64 := Nat.mod_lt _ (by decide)

theorem subU64_of_le (ha : a < 2 ^ 64) (h : b ≤ a) : subU64 a b = a - b := by
  unfold subU64
  rw [Nat.mod_eq_of_lt (Nat.lt_of_le_of_lt h ha)]
  omega

-- ---------------------------------------------------------------------------
-- Strings
-- ---------------------------------------------------------------------------

abbrev CStr := Nat → Byte

def cstr (s : List Byte) : CStr := fun i => s.getD i 0

def CStr.skip (s : CStr) (n : Nat) : CStr := fun i => s (n + i)

/-- The comparison ends with equality at the first NUL of either string. -/
def strncmp (s1 s2 : CStr) : Nat → Int
  | 0 => 0
  | n + 1 =>
    let u1 := s1 0
    let u2 := s2 0
    if u1 = 0 ∨ u2 = 0 then 0
    else if u1 ≠ u2 then u1.toNat - u2.toNat
    else strncmp (s1.skip 1) (s2.skip 1) n

/-- The characters of the string are `x`, up to its NUL. What follows is not the
string's. -/
structure IsStr (s : CStr) (x : List Byte) : Prop where
  noNul : 0 ∉ x
  chars : ∀ i ≤ x.length, s i = x.getD i 0

section
variable {s t : CStr} {x y : List Byte} {n : Nat}

theorem isStr_cstr (hx : 0 ∉ x) : IsStr (cstr x) x := ⟨hx, fun _ _ => rfl⟩

theorem IsStr.skip (h : IsStr s x) (hn : n ≤ x.length) : IsStr (s.skip n) (x.drop n) := by
  refine ⟨fun hmem => h.noNul (List.mem_of_mem_drop hmem), fun i hi => ?_⟩
  rw [List.length_drop] at hi
  rw [CStr.skip, h.chars (n + i) (by omega), List.getD_eq_getElem?_getD, List.getD_eq_getElem?_getD,
    List.getElem?_drop]

theorem IsStr.getElem? {i : Nat} (h : IsStr s x) (hi : i < x.length) : x[i]? = some (s i) := by
  rw [h.chars i hi.le, List.getD_eq_getElem?_getD, List.getElem?_eq_getElem hi]
  rfl

theorem IsStr.ne_zero {i : Nat} (h : IsStr s x) (hi : i < x.length) : s i ≠ 0 := by
  intro hzero
  have hmem := List.mem_of_getElem? (h.getElem? hi)
  rw [hzero] at hmem
  exact h.noNul hmem

theorem IsStr.end_eq_zero (h : IsStr s x) : s x.length = 0 := by
  rw [h.chars _ (le_refl _), List.getD_eq_getElem?_getD, List.getElem?_eq_none (le_refl _)]
  rfl

theorem IsStr.cons (hc : s 0 ≠ 0) (h : IsStr (s.skip 1) x) : IsStr s (s 0 :: x) := by
  refine ⟨List.not_mem_cons_of_ne_of_not_mem hc.symm h.noNul, fun i hi => ?_⟩
  cases i with
  | zero => rfl
  | succ i =>
    rw [List.getD_cons_succ, ← h.chars i (Nat.le_of_succ_le_succ hi), CStr.skip, Nat.add_comm]

theorem exists_isStr {n : Nat} (h : s n = 0) : ∃ x, IsStr s x := by
  induction n generalizing s with
  | zero =>
    refine ⟨[], List.not_mem_nil, fun i hi => ?_⟩
    obtain rfl := Nat.le_zero.mp hi
    exact h
  | succ n ih =>
    by_cases hzero : s 0 = 0
    · refine ⟨[], List.not_mem_nil, fun i hi => ?_⟩
      obtain rfl := Nat.le_zero.mp hi
      exact hzero
    · have hskip : s.skip 1 n = 0 := by rw [CStr.skip, Nat.add_comm, h]
      obtain ⟨x, hx⟩ := ih hskip
      exact ⟨_, hx.cons hzero⟩

theorem prefix_iff_getElem? {xs ys : List Byte} : xs <+: ys ↔ ∀ i < xs.length, ys[i]? = xs[i]? := by
  rw [List.prefix_iff_getElem?]
  refine forall₂_congr fun i hi => ?_
  rw [List.getElem?_eq_getElem hi]

theorem strncmp_eq_zero_iff :
    strncmp s t n = 0 ↔ ∀ k < n, (∀ i ≤ k, s i ≠ 0 ∧ t i ≠ 0) → s k = t k := by
  induction n generalizing s t with
  | zero => exact iff_of_true rfl fun k hk => absurd hk (Nat.not_lt_zero k)
  | succ n ih =>
    rw [strncmp]
    split_ifs with hnul hne
    · refine iff_of_true rfl fun k _ hchars => ?_
      obtain ⟨hs, ht⟩ := hchars 0 (Nat.zero_le k)
      exact absurd hnul (not_or.mpr ⟨hs, ht⟩)
    · refine iff_of_false (fun heq => hne (BitVec.eq_of_toNat_eq (by omega))) fun hall => ?_
      refine hne (hall 0 (Nat.succ_pos n) fun i hi => ?_)
      obtain rfl := Nat.le_zero.mp hi
      exact not_or.mp hnul
    · rw [ih]
      constructor
      · intro hall k hk hchars
        cases k with
        | zero => exact not_not.mp hne
        | succ k =>
          rw [Nat.add_comm k 1]
          refine hall k (Nat.lt_of_succ_lt_succ hk) fun i hi => ?_
          rw [CStr.skip, CStr.skip, Nat.add_comm 1 i]
          exact hchars (i + 1) (Nat.succ_le_succ hi)
      · intro hall k hk hchars
        rw [CStr.skip, CStr.skip, Nat.add_comm 1 k]
        refine hall (k + 1) (Nat.succ_lt_succ hk) fun i hi => ?_
        cases i with
        | zero => exact not_or.mp hnul
        | succ i =>
          rw [Nat.add_comm i 1]
          exact hchars i (Nat.le_of_succ_le_succ hi)

theorem strncmp_prefix_iff (hs : ∀ i < x.length, x[i]? = some (s i) ∧ s i ≠ 0) (ht : IsStr t y)
    (hend : s x.length = 0 ∨ y.length ≤ x.length) (hn : min x.length y.length ≤ n) :
    strncmp s t n = 0 ↔ x <+: y ∨ y <+: x := by
  rw [strncmp_eq_zero_iff, prefix_iff_getElem?, prefix_iff_getElem?]
  constructor
  · intro hall
    have hagree : ∀ k, k < x.length → k < y.length → x[k]? = y[k]? := by
      intro k hk hk'
      have heq := hall k (by omega) fun i hi => ⟨(hs i (by omega)).2, ht.ne_zero (by omega)⟩
      rw [(hs k hk).1, ht.getElem? hk', heq]
    rcases Nat.le_total x.length y.length with hle | hle
    · exact .inl fun i hi => (hagree i hi (by omega)).symm
    · exact .inr fun i hi => hagree i (by omega) hi
  · intro hprefix k _ hchars
    -- a NUL ends both strings where they end
    have hy : k < y.length := Nat.lt_of_not_le fun hge => (hchars y.length hge).2 ht.end_eq_zero
    have hx : k < x.length := Nat.lt_of_not_le fun hge => by
      rcases hend with hnul | hle
      · exact (hchars x.length hge).1 hnul
      · omega
    have hboth : x[k]? = y[k]? := by
      rcases hprefix with h | h
      · exact (h k hx).symm
      · exact h k hy
    exact Option.some.inj ((hs k hx).1.symm.trans (hboth.trans (ht.getElem? hy)))

/-- Of two strings the comparison takes one for the other where one is a prefix
of the other. -/
theorem strncmp_iff (hx : IsStr s x) (hy : IsStr t y) (hn : min x.length y.length ≤ n) :
    strncmp s t n = 0 ↔ x <+: y ∨ y <+: x :=
  strncmp_prefix_iff (fun _ hi => ⟨hx.getElem? hi, hx.ne_zero hi⟩) hy (.inl hx.end_eq_zero) hn

end

-- ---------------------------------------------------------------------------
-- Memory
-- ---------------------------------------------------------------------------

def memset : Mem → Nat → Byte → Nat → Mem
  | ram, _, _, 0 => ram
  | ram, dest, val, len + 1 => memset (Function.update ram dest val) (dest + 1) val len

def memcpy : Mem → Nat → Nat → Nat → Mem
  | ram, _, _, 0 => ram
  | ram, dest, src, len + 1 => memcpy (Function.update ram dest (ram src)) (dest + 1) (src + 1) len

theorem memset_apply (ram : Mem) (dest : Nat) (val : Byte) (len x : Nat) :
    memset ram dest val len x = if dest ≤ x ∧ x < dest + len then val else ram x := by
  induction len generalizing ram dest with
  | zero => rw [memset, if_neg (by omega)]
  | succ len ih =>
    rw [memset, ih]
    by_cases hx : x = dest
    · subst hx
      rw [if_neg (by omega), if_pos (by omega), Function.update_self]
    · rw [Function.update_of_ne hx]
      exact if_congr (by omega) rfl rfl

theorem memset_eqOn (ram : Mem) (dest : Nat) (val : Byte) (len : Nat) :
    Set.EqOn (memset ram dest val len) ram (span dest len)ᶜ := by
  intro x hx
  have hx' : ¬(dest ≤ x ∧ x < dest + len) := hx
  rw [memset_apply, if_neg hx']

/-- The copy goes upwards, so what is read has not been written yet unless the
destination starts inside the source. -/
theorem memcpy_apply {dest src len : Nat} (ram : Mem) (h : dest ≤ src ∨ src + len ≤ dest) (x : Nat) :
    memcpy ram dest src len x =
      if dest ≤ x ∧ x < dest + len then ram (src + (x - dest)) else ram x := by
  induction len generalizing ram dest src with
  | zero => rw [memcpy, if_neg (by omega)]
  | succ len ih =>
    rw [memcpy, ih _ (by omega)]
    by_cases hx : x = dest
    · subst hx
      rw [if_neg (by omega), if_pos (by omega), Function.update_self, Nat.sub_self, Nat.add_zero]
    · by_cases hin : dest + 1 ≤ x ∧ x < dest + 1 + len
      · rw [if_pos hin, if_pos (by omega), Function.update_of_ne (by omega)]
        exact congrArg ram (by omega)
      · rw [if_neg hin, if_neg (by omega), Function.update_of_ne hx]

end LimineOS
