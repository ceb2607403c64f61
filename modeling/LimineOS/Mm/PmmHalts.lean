import LimineOS.Mm.PmmRuns

/-!
# When `alloc` halts

The first scan of `alloc` looks at or above the cursor and the second one
below it, each counting its runs from zero. A clear run that the cursor stands
in the middle of is seen by neither (`alloc_eq_none_iff`).
-/

namespace LimineOS

open ByteMemory Transition

namespace PhysicalMemory

def HasRun (s : PhysicalMemory) (n : Nat) : Prop :=
  ∃ first, first + n ≤ s.limit ∧ ClearRun s.bitmap s.ram first n

/-- A clear run that the cursor does not stand in the middle of. -/
def HasRunAside (s : PhysicalMemory) (n : Nat) : Prop :=
  ∃ first, (s.lastI ≤ first ∧ first + n ≤ s.limit ∨ first + n ≤ s.lastI) ∧
    ClearRun s.bitmap s.ram first n

/-- The page that has the null pointer for its address is not free. -/
def PageZeroTaken (s : PhysicalMemory) : Prop := 0 < s.limit → s.bitmap.get s.ram 0 = true

structure CursorOk (s : PhysicalMemory) : Prop where
  cursor : s.lastI ≤ s.limit
  inSpace : s.highestAddr < 2 ^ 64

section
variable {s s' : PhysicalMemory} {n p : Nat} {mmap : List LimineMemmapEntry} {ram : Mem} {st : Session}
  {calls : List PmmCall}

theorem alloc_eq_none_iff (h : s.CursorOk) (hzero : s.PageZeroTaken) (hn : 1 ≤ n) :
    s.alloc n = none ↔ ¬s.HasRunAside n := by
  constructor
  · rintro hnone ⟨first, haside, hclear⟩
    have hcursor := h.cursor
    have hsome : ∃ p s', s.alloc n = some (p, s') := by
      rcases haside with ⟨hge, hle⟩ | hle
      · exact alloc_isSome hclear hge hle hn h.inSpace (hzero (by omega))
      · exact alloc_isSome_below hclear hle hn h.inSpace hcursor (hzero (by omega))
    obtain ⟨p, s', hsome⟩ := hsome
    exact absurd (hnone.symm.trans hsome) (by simp)
  · intro hno
    rw [Option.eq_none_iff_forall_ne_some]
    rintro ⟨p, s'⟩ hsome
    obtain ⟨page, -, hle, hclear, ⟨hfit, -⟩ | ⟨-, hbelow, -⟩⟩ := alloc_cases hsome hn h.inSpace h.cursor
    · exact hno ⟨page, .inl ⟨hfit.ge, hle⟩, hclear⟩
    · exact hno ⟨page, .inr hbelow, hclear⟩

-- ---------------------------------------------------------------------------
-- Runs
-- ---------------------------------------------------------------------------

theorem CursorOk.alloc (h : s.CursorOk) (ha : s.alloc n = some (p, s')) (hn : 1 ≤ n) : s'.CursorOk := by
  obtain ⟨-, hhigh, hcursor, -⟩ := alloc_eqOn ha hn h.inSpace h.cursor
  exact ⟨hcursor, hhigh ▸ h.inSpace⟩

theorem CursorOk.free (h : s.CursorOk) : (s.free p n).CursorOk := by
  refine ⟨?_, h.inSpace⟩
  have hcursor := h.cursor
  simp only [PhysicalMemory.free]
  show (if s.lastI > p / 0x1000 then p / 0x1000 else s.lastI) ≤ s.limit
  split <;> omega

theorem initializeMemory_cursorOk : (initializeMemory mmap ram).CursorOk := by
  obtain ⟨h, hfold, -, hlt, -⟩ := foldl_countEntry { ram, mmap } mmap
  have hplace : ∀ (s : PhysicalMemory) size, (s.placeBitmap size).lastI = s.lastI ∧
      (s.placeBitmap size).highestAddr = s.highestAddr := by
    intro s size
    unfold placeBitmap
    split <;> exact ⟨rfl, rfl⟩
  obtain ⟨hlast, hhigh⟩ := hplace (mmap.foldl countEntry { ram, mmap })
    (bitmapSize (mmap.foldl countEntry { ram, mmap }).highestAddr)
  refine ⟨hlast.le.trans ?_, hhigh.trans_lt ?_⟩
  · rw [hfold]
    exact Nat.zero_le _
  · rw [hfold]
    exact hlt (Nat.two_pow_pos 64)

theorem run_cursorOk (hrun : Run (Steps Session.call) ⟨initializeMemory mmap ram, []⟩ calls st) :
    st.pmm.CursorOk := by
  refine hrun.invariant (I := fun st => st.pmm.CursorOk) initializeMemory_cursorOk ?_
  rintro st c st' h hc
  cases c with
  | alloc size =>
    obtain ⟨hsize, p, s', ha, rfl⟩ := Session.alloc_cases hc
    exact h.alloc ha hsize
  | free ptr size =>
    obtain ⟨-, rfl⟩ := Session.free_cases hc
    exact h.free

theorem run_pageZeroTaken (hm : MapOk mmap) (hzero : ¬UsablePage mmap 0)
    (hcovers : (initializeMemory mmap ram).highestAddr / 4096 ≤
      8 * bitmapSize (initializeMemory mmap ram).highestAddr)
    (hfit : ∃ e ∈ mmap, e.type = limineMemmapUsable ∧
      bitmapSize (initializeMemory mmap ram).highestAddr ≤ e.length)
    (hrun : Run (Steps Session.call) ⟨initializeMemory mmap ram, []⟩ calls st) :
    st.pmm.PageZeroTaken := by
  obtain ⟨P, -, -, -, husable, hinit⟩ :=
    initializeWith_refines hm rfl rfl (bitmapSize_dvd _) hcovers hfit
  obtain ⟨L, -, hr⟩ := hrun.invariant (I := Session.Sound P) ⟨.empty, rfl, hinit⟩ fun h hc => h.call hc
  intro hpos
  have hlimit : 0 < P.limit := by
    rw [limit, hr.highestAddr] at hpos
    exact hpos
  rw [hr.bitmap, hr.set_iff hlimit, husable]
  exact .inl hzero

/-- After any run from `Initialize`, for every size: `alloc` does not halt while a
clear run is left exactly when the cursor does not stand in the middle of each of
them. Page 0 has to be taken, since its address is the null pointer. -/
theorem run_halts_iff (hrun : Run (Steps Session.call) ⟨initializeMemory mmap ram, []⟩ calls st) :
    (MapOk mmap → ¬UsablePage mmap 0 →
      (initializeMemory mmap ram).highestAddr / 4096 ≤
        8 * bitmapSize (initializeMemory mmap ram).highestAddr →
      (∃ e ∈ mmap, e.type = limineMemmapUsable ∧
        bitmapSize (initializeMemory mmap ram).highestAddr ≤ e.length) →
      st.pmm.PageZeroTaken) ∧
    (st.pmm.PageZeroTaken → ∀ n, 1 ≤ n →
      ((st.pmm.alloc n = none → ¬st.pmm.HasRun n) ↔ (st.pmm.HasRun n → st.pmm.HasRunAside n))) := by
  refine ⟨fun hm hzero hcovers hfit => run_pageZeroTaken hm hzero hcovers hfit hrun,
    fun hzero n hn => ?_⟩
  rw [alloc_eq_none_iff (run_cursorOk hrun) hzero hn]
  exact not_imp_not

end

-- ---------------------------------------------------------------------------
-- Sixteen pages
-- ---------------------------------------------------------------------------

/-- Calls that take every page and give back page 2, with a request in between that
moves the cursor past it. -/
theorem sixteenPages_stranded : ∃ s, s.FreePages [2] ∧ s.lastI = 16 ∧
    Run (Steps Session.call) ⟨initializeMemory sixteenPages fun _ => 0, []⟩
      [.alloc 1, .alloc 1, .alloc 10, .free 0x2000 1, .alloc 2]
      ⟨s, [⟨0xe000, 2⟩, ⟨0x4000, 10⟩, ⟨0x3000, 1⟩]⟩ := by
  obtain ⟨hlast₀, hfree₀⟩ := sixteenPages_freePages fun _ => 0
  obtain ⟨s₁, halloc₁, hlast₁, -, hfree₁⟩ := hfree₀.alloc 1 2 (by decide) (by decide) (by omega)
    (by decide) (by decide) (by rw [hlast₀]; decide)
  obtain ⟨s₂, halloc₂, hlast₂, -, hfree₂⟩ := hfree₁.alloc 1 3 (by decide) (by decide) (by omega)
    (by decide) (by decide) (by rw [hlast₁]; decide)
  obtain ⟨s₃, halloc₃, hlast₃, -, hfree₃⟩ := hfree₂.alloc 10 4 (by decide) (by decide) (by omega)
    (by decide) (by decide) (by rw [hlast₂]; decide)
  obtain ⟨hlast₄, -, hfree₄⟩ := hfree₃.free 2 1 (by decide)
  obtain ⟨s₅, halloc₅, hlast₅, -, hfree₅⟩ := hfree₄.alloc 2 14 (by decide) (by decide) (by omega)
    (by decide) (by decide) (by rw [hlast₄, hlast₃]; decide)
  refine ⟨s₅, hfree₅, hlast₅, ?_⟩
  exact .cons (Session.call_alloc halloc₁ (by decide)) <|
    .cons (Session.call_alloc halloc₂ (by decide)) <|
    .cons (Session.call_alloc halloc₃ (by decide)) <|
    .cons (Session.call_free (by decide)) <|
    .single (Session.call_alloc halloc₅ (by decide))

/-- Then page 3 is given back as well. The cursor comes back to page 3, and
`alloc(2)` halts with pages 2 and 3 free. -/
theorem sixteenPages_halts : MapOk sixteenPages ∧ ¬UsablePage sixteenPages 0 ∧ ∃ st,
    Run (Steps Session.call) ⟨initializeMemory sixteenPages fun _ => 0, []⟩
      [.alloc 1, .alloc 1, .alloc 10, .free 0x2000 1, .alloc 2, .free 0x3000 1] st ∧
    st.pmm.HasRun 2 ∧ st.pmm.alloc 2 = none := by
  obtain ⟨s, hfree, hlast, hrun⟩ := sixteenPages_stranded
  obtain ⟨hlast', -, hleft⟩ := hfree.free 3 1 (by decide)
  have hrun' := hrun.append (.single (Session.call_free (n := 1) (p := 0x3000) (by decide)))
  have hzero : (s.free (4096 * 3) 1).PageZeroTaken := by
    intro _
    rw [hleft.bits 0 (by decide)]
    decide
  have hclear : ∀ {first}, first + 2 ≤ 16 →
      ClearRun (s.free (4096 * 3) 1).bitmap (s.free (4096 * 3) 1).ram first 2 →
      first = 2 := by
    intro first hle hrun
    have hpages := (hleft.clearRun_iff hle).mp hrun
    have h₀ : first + 0 ∈ [3, 2] := hpages 0 (by decide)
    have h₁ : first + 1 ∈ [3, 2] := hpages 1 (by decide)
    simp only [List.mem_cons, List.not_mem_nil, or_false] at h₀ h₁
    omega
  refine ⟨sixteenPages_ok, ?_, _, hrun', ⟨2, ?_, (hleft.clearRun_iff (by decide)).mpr (by decide)⟩, ?_⟩
  · rintro ⟨e, he, hcovers⟩
    obtain rfl := List.mem_singleton.mp he
    exact absurd hcovers.2.1 (by decide)
  · show 2 + 2 ≤ (s.free (4096 * 3) 1).limit
    rw [hleft.limit_eq]
    decide
  · show (s.free (4096 * 3) 1).alloc 2 = none
    rw [alloc_eq_none_iff (run_cursorOk hrun') hzero (by decide)]
    rintro ⟨first, haside, hrun⟩
    rw [hleft.limit_eq, hlast', hlast] at haside
    obtain rfl := hclear (by omega) hrun
    omega

theorem run_halts_iff_sixteenPages :
    ∃ st, Run (Steps Session.call) ⟨initializeMemory sixteenPages fun _ => 0, []⟩ [.alloc 1] st ∧
    st.pmm.PageZeroTaken ∧ (st.pmm.alloc 2 = none → ¬st.pmm.HasRun 2) := by
  obtain ⟨hlast₀, hfree₀⟩ := sixteenPages_freePages fun _ => 0
  obtain ⟨s₁, halloc₁, hlast₁, -, hfree₁⟩ :=
    hfree₀.alloc 1 2 (by decide) (by decide) (by omega) (by decide)
    (by decide) (by rw [hlast₀]; decide)
  have hrun : Run (Steps Session.call) ⟨initializeMemory sixteenPages fun _ => 0, []⟩ [.alloc 1]
      ⟨s₁, _⟩ :=
    .single (Session.call_alloc halloc₁ (by decide))
  have hzero : s₁.PageZeroTaken := by
    intro _
    rw [hfree₁.bits 0 (by decide)]
    decide
  refine ⟨_, hrun, hzero,
    ((run_halts_iff hrun).2 hzero 2 (by decide)).mpr fun _ => ⟨3, .inl ⟨hlast₁.le, ?_⟩, ?_⟩⟩
  · show 3 + 2 ≤ s₁.limit
    rw [hfree₁.limit_eq]
    decide
  · exact (hfree₁.clearRun_iff (by decide)).mpr (by decide)

end PhysicalMemory

end LimineOS
