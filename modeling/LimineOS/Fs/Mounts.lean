import LimineOS.Fs.Vfs
import Mathlib.Data.List.MinMax

/-!
# Which filesystem a path belongs to

A path belongs to the longest mount point that it starts with and that ends
with a component of it. `VFS::open` looks for something else: the last mount
point that `strncmp` cannot tell from the path, which ends the comparison at
the end of either string. `routed_iff` says when that is the same.
-/

namespace LimineOS

open ByteMemory

namespace VFS

def slash : Byte := 0x2f

/-- A component of the path starts or ends after its first `n` characters. -/
def Boundary (path : List Byte) (n : Nat) : Prop :=
  n = 0 ∨ n = path.length ∨ path[n - 1]? = some slash ∨ path[n]? = some slash

/-- The mount point is the start of the path, up to a component's end. -/
def Leads (mp path : List Byte) : Prop := mp <+: path ∧ Boundary path mp.length

/-- One of the two is the start of the other. -/
def Comparable (mp path : List Byte) : Prop := mp <+: path ∨ path <+: mp

instance (path : List Byte) (n : Nat) : Decidable (Boundary path n) :=
  inferInstanceAs (Decidable (_ ∨ _))

instance (mp path : List Byte) : Decidable (Leads mp path) := inferInstanceAs (Decidable (_ ∧ _))

instance (mp path : List Byte) : Decidable (Comparable mp path) := inferInstanceAs (Decidable (_ ∨ _))

theorem find?_reverse_zipIdx {α : Type} {p : α → Prop} [DecidablePred p] {l : List α} {a : α}
    {i : Nat} :
    (l.zipIdx.reverse.find? fun a => p a.1) = some (a, i) ↔
      l[i]? = some a ∧ p a ∧ ∀ j b, l[j]? = some b → p b → j ≤ i := by
  induction l using List.reverseRecOn with
  | nil => simp
  | append_singleton l c ih =>
    have hzip : (l ++ [c]).zipIdx.reverse = (c, l.length) :: l.zipIdx.reverse := by
      rw [List.zipIdx_append, List.reverse_append, Nat.zero_add]
      rfl
    rw [hzip]
    by_cases hc : p c
    · rw [List.find?_cons_of_pos (by simpa using hc), Option.some.injEq, Prod.mk.injEq]
      constructor
      · rintro ⟨rfl, rfl⟩
        refine ⟨List.getElem?_concat_length, hc, fun j b hb _ => ?_⟩
        have hlt := (List.getElem?_eq_some_iff.mp hb).1
        rw [List.length_append, List.length_singleton] at hlt
        omega
      · rintro ⟨hget, -, hlast⟩
        have hge := hlast l.length c List.getElem?_concat_length hc
        have hlt := (List.getElem?_eq_some_iff.mp hget).1
        rw [List.length_append, List.length_singleton] at hlt
        obtain rfl : i = l.length := by omega
        rw [List.getElem?_concat_length] at hget
        exact ⟨Option.some.inj hget, rfl⟩
    · rw [List.find?_cons_of_neg (by simpa using hc), ih]
      have hget : ∀ (j : Nat) (b : α), p b → ((l ++ [c])[j]? = some b ↔ l[j]? = some b) := by
        intro j b hb
        by_cases hj : j < l.length
        · rw [List.getElem?_append_left hj]
        · have hnone : l[j]? = none := List.getElem?_eq_none (by omega)
          rw [hnone, List.getElem?_append_right (by omega)]
          refine iff_of_false (fun h => ?_) (by simp)
          obtain rfl := List.mem_singleton.mp (List.mem_of_getElem? h)
          exact hc hb
      constructor
      · rintro ⟨ha, hp, hlast⟩
        exact ⟨(hget i a hp).mpr ha, hp, fun j b hb hpb => hlast j b ((hget j b hpb).mp hb) hpb⟩
      · rintro ⟨ha, hp, hlast⟩
        exact ⟨(hget i a hp).mp ha, hp, fun j b hb hpb => hlast j b ((hget j b hpb).mpr hb) hpb⟩

section
variable {σ : Type} {st : VFS σ} {path : List Byte} {s : CStr} {fs gs : Filesystem σ} {i j : Nat}

structure Longest (st : VFS σ) (path : List Byte) (fs : Filesystem σ) (i : Nat) : Prop where
  mounted : st.filesystems[i]? = some fs
  leads : Leads fs.mountpoint path
  longest : ∀ gs ∈ st.filesystems, Leads gs.mountpoint path →
    gs.mountpoint.length ≤ fs.mountpoint.length

/-- `open` asks filesystem `i` for `rest`, and returns and files its answer. -/
def OpensOn (st : VFS σ) (s : CStr) (fs : Filesystem σ) (i : Nat) (rest : CStr) : Prop :=
  st.openFile s = ((fs.openFile st.world rest).1,
    { st with
      world := (fs.openFile st.world rest).2
      openFilesystems := st.openFilesystems.put (fs.openFile st.world rest).1 i })

/-- The longest mount point that leads to the path gets the request and the
rest of the path; without one, `open` returns -1 and no filesystem is asked. -/
structure Routed (st : VFS σ) (s : CStr) (path : List Byte) : Prop where
  found : ∀ fs i, st.Longest path fs i → st.resolve s = some (fs, i) ∧
    st.OpensOn s fs i (s.skip fs.mountpoint.length) ∧ fs.mountpoint.length ≤ path.length ∧
    IsStr (s.skip fs.mountpoint.length) (path.drop fs.mountpoint.length)
  missing : (∀ fs ∈ st.filesystems, ¬Leads fs.mountpoint path) →
    st.resolve s = none ∧ st.openFile s = (-1, st)

structure LastComparable (st : VFS σ) (path : List Byte) (fs : Filesystem σ) (i : Nat) : Prop where
  mounted : st.filesystems[i]? = some fs
  comparable : Comparable fs.mountpoint path
  last : ∀ j gs, st.filesystems[j]? = some gs → Comparable gs.mountpoint path → j ≤ i

def NoNul (st : VFS σ) : Prop := ∀ fs ∈ st.filesystems, 0 ∉ fs.mountpoint

theorem matchesPath_iff (hfs : 0 ∉ fs.mountpoint) (hs : IsStr s path) :
    MatchesPath s fs ↔ Comparable fs.mountpoint path :=
  strncmp_iff (isStr_cstr hfs) hs (Nat.min_le_left ..)

theorem resolve_none_iff (hst : st.NoNul) (hs : IsStr s path) :
    st.resolve s = none ↔ ∀ fs ∈ st.filesystems, ¬Comparable fs.mountpoint path := by
  rw [resolve_eq, List.find?_eq_none]
  constructor
  · intro h fs hfs hcomp
    obtain ⟨i, hi⟩ := List.mem_iff_getElem?.mp hfs
    have hmem : (fs, i) ∈ st.filesystems.zipIdx.reverse :=
      List.mem_reverse.mpr (List.mk_mem_zipIdx_iff_getElem?.mpr hi)
    exact h _ hmem (by simpa using (matchesPath_iff (hst fs hfs) hs).mpr hcomp)
  · rintro h ⟨fs, i⟩ hmem
    have hfs := List.mem_of_getElem? (List.mk_mem_zipIdx_iff_getElem?.mp (List.mem_reverse.mp hmem))
    simpa using mt (matchesPath_iff (hst fs hfs) hs).mp (h fs hfs)

theorem resolve_some_iff (hst : st.NoNul) (hs : IsStr s path) :
    st.resolve s = some (fs, i) ↔ st.LastComparable path fs i := by
  rw [resolve_eq, find?_reverse_zipIdx]
  have hmatch : ∀ {j gs}, st.filesystems[j]? = some gs →
      (MatchesPath s gs ↔ Comparable gs.mountpoint path) :=
    fun hgs => matchesPath_iff (hst _ (List.mem_of_getElem? hgs)) hs
  constructor
  · rintro ⟨hget, hp, hlast⟩
    exact ⟨hget, (hmatch hget).mp hp, fun j gs hgs hcomp => hlast j gs hgs ((hmatch hgs).mpr hcomp)⟩
  · rintro ⟨hget, hcomp, hlast⟩
    exact ⟨hget, (hmatch hget).mpr hcomp, fun j gs hgs hp => hlast j gs hgs ((hmatch hgs).mp hp)⟩

theorem opensOn_of_resolve (h : st.resolve s = some (fs, i)) :
    st.OpensOn s fs i (s.skip fs.mountpoint.length) := by
  rw [OpensOn, openFile, h]

theorem Leads.comparable {mp : List Byte} (h : Leads mp path) : Comparable mp path := .inl h.1

theorem Longest.unique (hnodup : (st.filesystems.map Filesystem.mountpoint).Nodup)
    (h : st.Longest path fs i)
    (h' : st.Longest path gs j) : fs = gs ∧ i = j := by
  have hlen : fs.mountpoint.length = gs.mountpoint.length :=
    le_antisymm (h'.longest fs (List.mem_of_getElem? h.mounted) h.leads)
      (h.longest gs (List.mem_of_getElem? h'.mounted) h'.leads)
  have hmp : fs.mountpoint = gs.mountpoint :=
    (List.prefix_of_prefix_length_le h.leads.1 h'.leads.1 (le_of_eq hlen)).eq_of_length hlen
  have hi : (st.filesystems.map Filesystem.mountpoint)[i]? = some fs.mountpoint := by
    rw [List.getElem?_map, h.mounted]
    rfl
  have hj : (st.filesystems.map Filesystem.mountpoint)[j]? = some fs.mountpoint := by
    rw [List.getElem?_map, h'.mounted, hmp]
    rfl
  have hij : i = j := (List.getElem?_inj (List.getElem?_eq_some_iff.mp hi).1 hnodup).mp
    (hi.trans hj.symm)
  subst hij
  exact ⟨Option.some.inj (h.mounted.symm.trans h'.mounted), rfl⟩

theorem exists_longest (h : ∃ fs ∈ st.filesystems, Leads fs.mountpoint path) :
    ∃ fs i, st.Longest path fs i := by
  obtain ⟨gs, hgs, hleads⟩ := h
  have hmem : gs ∈ st.filesystems.filter fun fs => Leads fs.mountpoint path :=
    List.mem_filter.mpr ⟨hgs, by simpa using hleads⟩
  cases hmax : (st.filesystems.filter fun fs => Leads fs.mountpoint path).argmax fun fs =>
    fs.mountpoint.length with
  | none =>
    rw [List.argmax_eq_none.mp hmax] at hmem
    exact absurd hmem (by simp)
  | some fs =>
    obtain ⟨hfs, hl⟩ := List.mem_filter.mp (List.argmax_mem hmax)
    obtain ⟨i, hi⟩ := List.mem_iff_getElem?.mp hfs
    refine ⟨fs, i, hi, by simpa using hl, fun gs hgs hleads => ?_⟩
    have hmem : gs ∈ st.filesystems.filter fun fs => Leads fs.mountpoint path :=
      List.mem_filter.mpr ⟨hgs, by simpa using hleads⟩
    exact List.le_of_mem_argmax (f := fun fs : Filesystem σ => fs.mountpoint.length) hmem hmax

theorem exists_lastComparable (h : ∃ fs ∈ st.filesystems, Comparable fs.mountpoint path) :
    ∃ fs i, st.LastComparable path fs i := by
  cases hlast : st.filesystems.zipIdx.reverse.find? fun fs => Comparable fs.1.mountpoint path with
  | none =>
    obtain ⟨fs, hfs, hcomp⟩ := h
    obtain ⟨i, hi⟩ := List.mem_iff_getElem?.mp hfs
    have hmem := List.mem_reverse.mpr (List.mk_mem_zipIdx_iff_getElem?.mpr hi)
    exact absurd hcomp (by simpa using List.find?_eq_none.mp hlast _ hmem)
  | some found =>
    obtain ⟨hget, hcomp, hlast⟩ :=
      (find?_reverse_zipIdx (p := fun fs : Filesystem σ => Comparable fs.mountpoint path)).mp hlast
    exact ⟨found.1, found.2, hget, hcomp, hlast⟩

/-- `open` routes the path exactly when the last mount point that is comparable
to it is the longest that leads to it. -/
theorem routed_iff_last (hst : st.NoNul) (hnodup : (st.filesystems.map Filesystem.mountpoint).Nodup)
    (hs : IsStr s path) :
    st.Routed s path ↔ ∀ fs i, st.LastComparable path fs i → st.Longest path fs i := by
  constructor
  · intro h fs i hlast
    have hresolve := (resolve_some_iff hst hs).mpr hlast
    by_cases hleads : ∃ gs ∈ st.filesystems, Leads gs.mountpoint path
    · obtain ⟨gs, j, hlongest⟩ := exists_longest hleads
      obtain ⟨rfl, rfl⟩ := Prod.mk.inj (Option.some.inj ((h.found gs j hlongest).1.symm.trans hresolve))
      exact hlongest
    · have hnone := (h.missing fun gs hgs hl => hleads ⟨gs, hgs, hl⟩).1
      rw [hnone] at hresolve
      exact absurd hresolve (by simp)
  · intro h
    refine ⟨fun fs i hlongest => ?_, fun hnone => ?_⟩
    · have hcomp : ∃ gs ∈ st.filesystems, Comparable gs.mountpoint path :=
        ⟨fs, List.mem_of_getElem? hlongest.mounted, hlongest.leads.comparable⟩
      obtain ⟨gs, j, hlast⟩ := exists_lastComparable hcomp
      obtain ⟨rfl, rfl⟩ := hlongest.unique hnodup (h gs j hlast)
      have hresolve := (resolve_some_iff hst hs).mpr hlast
      exact ⟨hresolve, opensOn_of_resolve hresolve, hlongest.leads.1.length_le,
        hs.skip hlongest.leads.1.length_le⟩
    · have hresolve : st.resolve s = none := by
        rw [resolve_none_iff hst hs]
        intro fs hfs hcomp
        obtain ⟨gs, j, hlast⟩ := exists_lastComparable ⟨fs, hfs, hcomp⟩
        exact hnone gs (List.mem_of_getElem? hlast.mounted) (h gs j hlast).leads
      exact ⟨hresolve, by rw [openFile, hresolve]⟩

def reorder (st : VFS σ) (order : List (Filesystem σ)) : VFS σ := { st with filesystems := order }

theorem Longest.reorder {order : List (Filesystem σ)} (h : st.Longest path fs i)
    (hperm : order.Perm st.filesystems)
    (hj : order[j]? = some fs) : (st.reorder order).Longest path fs j :=
  ⟨hj, h.leads, fun gs hgs hleads => h.longest gs (hperm.mem_iff.mp hgs) hleads⟩

/-- `open` routes the path exactly when the last mount point comparable to it
is the longest that leads to it, and does so in every order of the mounts
exactly when there is no other comparable one. -/
theorem routed_iff (hst : st.NoNul) (hnodup : (st.filesystems.map Filesystem.mountpoint).Nodup)
    (hs : IsStr s path) :
    (st.Routed s path ↔ ∀ fs i, st.LastComparable path fs i → st.Longest path fs i) ∧
      ((∀ order, order.Perm st.filesystems → (st.reorder order).Routed s path) ↔
        ∀ fs i, st.filesystems[i]? = some fs → Comparable fs.mountpoint path →
        st.Longest path fs i) := by
  have horder : ∀ {order : List (Filesystem σ)}, order.Perm st.filesystems →
      ((st.reorder order).Routed s path ↔
        ∀ fs i, (st.reorder order).LastComparable path fs i →
        (st.reorder order).Longest path fs i) := by
    intro order hperm
    refine routed_iff_last (fun fs hfs => hst fs (hperm.mem_iff.mp hfs)) ?_ hs
    exact ((hperm.map Filesystem.mountpoint).nodup_iff).mpr hnodup
  refine ⟨routed_iff_last hst hnodup hs, ?_⟩
  constructor
  · intro h fs i hi hcomp
    -- mount this one last
    obtain ⟨a, b, hab⟩ := List.append_of_mem (List.mem_of_getElem? hi)
    have hperm : (a ++ b ++ [fs]).Perm st.filesystems := by
      rw [hab, List.append_assoc]
      exact (List.perm_append_singleton fs b).append_left a
    have hlast : (st.reorder (a ++ b ++ [fs])).LastComparable path fs (a ++ b).length := by
      refine ⟨List.getElem?_concat_length, hcomp, fun j gs hgs _ => ?_⟩
      have hlt := (List.getElem?_eq_some_iff.mp hgs).1
      rw [reorder, List.length_append, List.length_singleton] at hlt
      omega
    have hlongest := (horder hperm).mp (h _ hperm) fs _ hlast
    exact ⟨hi, hlongest.leads, fun gs hgs hleads => hlongest.longest gs (hperm.mem_iff.mpr hgs) hleads⟩
  · intro h order hperm
    rw [horder hperm]
    intro fs i hlast
    obtain ⟨j, hj⟩ := List.mem_iff_getElem?.mp (hperm.mem_iff.mp (List.mem_of_getElem? hlast.mounted))
    exact (h fs j hj hlast.comparable).reorder hperm hlast.mounted

end

def root : List Byte := [0x2f]
def dev : List Byte := [0x2f, 0x64, 0x65, 0x76]

def devX : List Byte := dev ++ [0x2f, 0x78]

abbrev noFiles : Initrd := { mem := fun _ => 0 }

theorem routed_iff_rootFirst : (mountedAt [root, dev] noFiles).Routed (cstr devX) devX := by
  have hnoNul : (mountedAt [root, dev] noFiles).NoNul := by
    intro fs hfs
    obtain ⟨mp, hmp, rfl⟩ := List.mem_map.mp hfs
    have hall : ∀ mp ∈ [root, dev], 0 ∉ mp := by decide
    exact hall mp hmp
  refine (routed_iff hnoNul (by decide) (isStr_cstr (by decide))).1.mpr fun fs i hlast => ?_
  have hge : 1 ≤ i := hlast.last 1 (initrdFilesystem dev) rfl (.inl (by decide))
  have hlt : i < 2 := (List.getElem?_eq_some_iff.mp hlast.mounted).1
  obtain rfl : i = 1 := by omega
  obtain rfl : initrdFilesystem dev = fs := Option.some.inj hlast.mounted
  refine ⟨rfl, by decide, fun gs hgs _ => ?_⟩
  obtain ⟨mp, hmp, rfl⟩ := List.mem_map.mp hgs
  have hall : ∀ mp ∈ [root, dev], mp.length ≤ dev.length := by decide
  exact hall mp hmp

/-- With the root mounted last, `/dev/x` goes to it; and it takes the empty
path, although that is shorter than `/`. -/
theorem rootLast_not_routed : ¬(mountedAt [dev, root] noFiles).Routed (cstr devX) devX ∧
    ¬(mountedAt [root] noFiles).Routed (cstr []) [] := by
  constructor
  · intro h
    have hlongest : (mountedAt [dev, root] noFiles).Longest devX (initrdFilesystem dev) 0 := by
      refine ⟨rfl, by decide, fun gs hgs _ => ?_⟩
      obtain ⟨mp, hmp, rfl⟩ := List.mem_map.mp hgs
      have hall : ∀ mp ∈ [dev, root], mp.length ≤ dev.length := by decide
      exact hall mp hmp
    have hresolve : (mountedAt [dev, root] noFiles).resolve (cstr devX) =
        some (initrdFilesystem root, 1) := rfl
    have hindex := congrArg (Option.map Prod.snd) (hresolve.symm.trans (h.found _ _ hlongest).1)
    exact absurd hindex (by simp)
  · intro h
    have hnone : ∀ fs ∈ (mountedAt [root] noFiles).filesystems, ¬Leads fs.mountpoint [] := by
      intro fs hfs
      obtain rfl := List.mem_singleton.mp hfs
      decide
    have hresolve : (mountedAt [root] noFiles).resolve (cstr []) =
        some (initrdFilesystem root, 0) := rfl
    rw [(h.missing hnone).1] at hresolve
    exact absurd hresolve (by simp)

end VFS

end LimineOS
