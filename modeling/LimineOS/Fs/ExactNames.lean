import LimineOS.Fs.Initrd
import LimineOS.Lib.FirstMatch

/-!
# Opening by name

`open` compares names with `strncmp`, which is satisfied at the first NUL of
either string. So a file is taken for a path as soon as one of the two is a
prefix of the other, and the file that bears the path's name is opened only if
no file before it is taken (`openFile_exact_iff`).
-/

namespace LimineOS

open ByteMemory FirstMatch

-- ---------------------------------------------------------------------------
-- The name field
-- ---------------------------------------------------------------------------

/-- How many of the field's 64 characters come before a NUL. -/
def nameLength (name : CStr) : Nat := (List.range 64).findIdx fun i => name i = 0

def fieldName (name : CStr) : List Byte := (List.range (nameLength name)).map name

section
variable {name path : CStr} {p : List Byte}

theorem nameLength_le (name : CStr) : nameLength name ≤ 64 := by
  have h : nameLength name ≤ (List.range 64).length := List.findIdx_le_length
  rwa [List.length_range] at h

theorem name_ne_zero {i : Nat} (hi : i < nameLength name) : name i ≠ 0 := by
  have h := List.not_of_lt_findIdx hi
  rw [List.getElem_range] at h
  simpa using h

theorem name_end (h : nameLength name < 64) : name (nameLength name) = 0 := by
  have hidx : (List.range 64).findIdx (fun i => decide (name i = 0)) < (List.range 64).length := by
    rw [List.length_range]
    exact h
  have hend := List.findIdx_getElem (w := hidx)
  rw [List.getElem_range] at hend
  exact of_decide_eq_true hend

@[simp] theorem length_fieldName : (fieldName name).length = nameLength name := by
  rw [fieldName, List.length_map, List.length_range]

theorem getElem?_fieldName {i : Nat} (hi : i < nameLength name) :
    (fieldName name)[i]? = some (name i) := by
  rw [fieldName, List.getElem?_map, List.getElem?_range hi]
  rfl

/-- A file is taken for a path where one of the names is a prefix of the other.
Only a name that fills its field and a longer path are compared beyond that. -/
theorem strncmp_field_iff (hp : IsStr path p) (hlen : p.length ≤ 64 ∨ nameLength name < 64) :
    strncmp name path 128 = 0 ↔ fieldName name <+: p ∨ p <+: fieldName name := by
  have hbound := nameLength_le name
  refine strncmp_prefix_iff (fun i hi => ?_) hp ?_ ?_ <;> rw [length_fieldName] at *
  · exact ⟨getElem?_fieldName hi, name_ne_zero hi⟩
  · rcases Nat.lt_or_ge (nameLength name) 64 with hlt | hge
    · exact .inl (name_end hlt)
    · exact .inr (by omega)
  · omega

theorem strncmp_of_fieldName (hp : IsStr path p) (h : fieldName name = p) :
    strncmp name path 128 = 0 := by
  refine (strncmp_field_iff hp (.inl ?_)).mpr (.inl (h ▸ List.prefix_refl _))
  rw [← h, length_fieldName]
  exact nameLength_le name

end

-- ---------------------------------------------------------------------------
-- What is opened
-- ---------------------------------------------------------------------------

namespace Initrd

def opened (s : Initrd) : Option Nat → BitVec 32 × Initrd
  | none => (-1, s)
  | some i =>
    (s.curFd, { s.setPos i 0 with openFiles := s.openFiles.put s.curFd i, curFd := s.curFd + 1 })

def exactly (s : Initrd) (p : List Byte) : Option Nat := s.names.findIdx? fun name => fieldName name = p

section
variable {s : Initrd} {path : CStr} {p : List Byte}

theorem openFile_eq_opened : s.openFile path = s.opened (s.lookup path) := by
  cases h : s.lookup path with
  | none => exact openFile_of_none h
  | some i => exact openFile_of_lookup h

theorem opened_injective (s : Initrd) : Function.Injective s.opened := by
  have hmoved : s.curFd + 1 ≠ s.curFd := by bv_omega
  intro found found' h
  have hstate := congrArg Prod.snd h
  cases found with
  | none =>
    cases found' with
    | none => rfl
    | some j => exact absurd (congrArg Initrd.curFd hstate).symm hmoved
  | some i =>
    cases found' with
    | none => exact absurd (congrArg Initrd.curFd hstate) hmoved
    | some j =>
      have hget := congrArg (fun t : Initrd => t.openFiles.get s.curFd) hstate
      simp only [opened, UnorderedMap.get_put] at hget
      exact hget

/-- `open` opens the first file of exactly the path's name, or fails for want of
one, exactly when every file that `strncmp` takes for the path is or follows one
of that name. -/
theorem openFile_exact_iff (hp : IsStr path p) :
    s.openFile path = s.opened (s.exactly p) ↔
      ∀ (j : Nat) (name : CStr), s.names[j]? = some name → strncmp name path 128 = 0 →
        ∃ i ≤ j, ∃ name', s.names[i]? = some name' ∧ fieldName name' = p := by
  rw [openFile_eq_opened, (opened_injective s).eq_iff, lookup_eq]
  exact findIdx?_eq_iff (fun name => strncmp_of_fieldName hp) s.names

end

def oneFile : Initrd :=
  { mem := fun _ => 0, files := [{ data := 4096, size := 8, name := cstr [0x61, 0x62] }] }

theorem openFile_exact_iff_oneFile :
    oneFile.openFile (cstr [0x61, 0x62]) = oneFile.opened (oneFile.exactly [0x61, 0x62]) := by
  refine (openFile_exact_iff (isStr_cstr (by decide))).mpr fun j name hj _ => ?_
  cases j with
  | zero => exact ⟨0, le_refl 0, _, hj, by obtain rfl := Option.some.inj hj; decide⟩
  | succ j => exact absurd hj (by simp [names, oneFile])

/-- No file has exactly this path as its name, and `open` returns 0. -/
def Misopens (p : List Byte) : Prop :=
  IsStr (cstr p) p ∧ oneFile.exactly p = none ∧ (oneFile.openFile (cstr p)).1 = 0 ∧
    oneFile.openFile (cstr p) ≠ oneFile.opened (oneFile.exactly p)

theorem misopens_of {p : List Byte} (hnul : 0 ∉ p) (hnone : oneFile.exactly p = none)
    (hfd : (oneFile.openFile (cstr p)).1 = 0) : Misopens p := by
  refine ⟨isStr_cstr hnul, hnone, hfd, fun heq => ?_⟩
  rw [heq, hnone] at hfd
  exact absurd hfd (by decide)

/-- `a`, the empty path and `abc` all open `ab`. -/
theorem oneFile_not_exact : Misopens [0x61] ∧ Misopens [] ∧ Misopens [0x61, 0x62, 0x63] :=
  ⟨misopens_of (by decide) (by decide) (by decide), misopens_of (by decide) (by decide) (by decide),
    misopens_of (by decide) (by decide) (by decide)⟩

end Initrd

end LimineOS
