import LimineOS.Fs.Elf
import LimineOS.Lib.Layout

/-!
# The segments of a load

Each loadable header gets a block of pages that were free (`Placed`). The loop
over the headers extends the thread's address space by one page for each of
them and leaves earlier blocks alone (`loadPhdrs_ok`), as long as no copy runs
past the end of its block.
-/

namespace LimineOS

open ByteMemory PhysicalMemory VirtualMemory

structure Segment where
  phdr : Turn
  addr : Nat

def Segment.block (g : Segment) : Set Nat := span g.addr (4096 * g.phdr.pages)

def Segment.call (root : Nat) (g : Segment) : MapCall where
  root := root
  vaddr := g.phdr.pVaddr
  paddr := BitVec.ofNat 64 g.addr
  flags := Thread.userFlags

def segmentsOf (root : Nat) : PhysicalMemory → List Turn → List Segment
  | _, [] => []
  | s, ph :: phs =>
    match loadPhdr root s ph with
    | none => []
    | some s' =>
      if ph.Loads then ((s.alloc ph.pages).map fun a => ⟨ph, a.1⟩).toList ++ segmentsOf root s' phs
      else segmentsOf root s' phs

def Elf64Phdr.Fits (ph : Elf64Phdr) : Prop := ph.Loads → ph.pFilesz ≤ 4096 * ph.pages

instance (ph : Elf64Phdr) : Decidable ph.Fits := inferInstanceAs (Decidable (_ → _))

/-- Where a segment ends up: on pages that were free in `s`, apart from all
tables, with the file's bytes in front and the rest zero where it was. -/
structure Placed (s : PhysicalMemory) (used' : List Nat) (s' : PhysicalMemory)
    (g : Segment) : Prop where
  aligned : 4096 ∣ g.addr
  free : ∀ x ∈ g.block, s.Free x
  held : ∀ x ∈ g.block, s'.Held x
  apart : ∀ x ∈ g.block, x ∉ tables used'
  copied : ∀ o < g.phdr.pFilesz, s'.ram (g.addr + o) = g.phdr.source (g.phdr.pOffset + o)
  rest : ∀ o, g.phdr.pFilesz ≤ o → o < 4096 * g.phdr.pages → s.ram (g.addr + o) = 0 →
    s'.ram (g.addr + o) = 0

section
variable {own : Set Nat} {root : Nat} {used used' : List Nat} {s s' : PhysicalMemory} {ph : Turn}
  {phs : List Turn}

theorem Elf64Phdr.pages_pos (ph : Elf64Phdr) : 1 ≤ ph.pages := by
  unfold Elf64Phdr.pages
  split_ifs <;> omega

theorem copyIn_apply (ram : Mem) (dest : Nat) (buf : Mem) (src len x : Nat) :
    copyIn ram dest buf src len x =
      if dest ≤ x ∧ x < dest + len then buf (src + (x - dest)) else ram x := by
  induction len generalizing ram dest src with
  | zero => rw [copyIn, if_neg (by omega)]
  | succ len ih =>
    rw [copyIn, ih]
    by_cases hx : x = dest
    · subst hx
      rw [if_neg (by omega), if_pos (by omega), Function.update_self, Nat.sub_self, Nat.add_zero]
    · rw [Function.update_of_ne hx]
      refine if_ctx_congr (by omega) (fun h => congrArg buf ?_) fun _ => rfl
      omega

/-- The block is there and its first page is mapped. Nothing has been copied
yet. -/
structure Reserved (own : Set Nat) (root : Nat) (used : List Nat) (s : PhysicalMemory)
    (used' : List Nat)
    (s' : PhysicalMemory) (g : Segment) : Prop where
  aligned : 4096 ∣ g.addr
  free : ∀ x ∈ g.block, s.Free x
  held : ∀ x ∈ g.block, s'.Held x
  outside : ∀ x ∈ g.block, x ∉ own
  apart : ∀ x ∈ g.block, x ∉ tables used'
  ram : ∀ x ∈ g.block, s.ram x = 0 → s'.ram x = 0
  extended : Extended own root used s used' s'
  leaf : ∀ w, leaf s'.ram root w = if SamePage g.phdr.pVaddr w then some (g.call root).entry
    else leaf s.ram root w

theorem segment_reserved {s₁ : PhysicalMemory} {f : Nat} {new : List Nat} (h : Space own root used s)
    (halloc : s.alloc ph.pages = some (f, s₁))
    (hmap : mapPage s₁ root ph.pVaddr (BitVec.ofNat 64 f) Thread.userFlags = some (s', new)) :
    Reserved own root used s (used ++ new) s' ⟨ph, f⟩ := by
  have hal := h.sane.alloc ph.pages_pos halloc
  obtain ⟨hext₁, hleaf₁⟩ := h.took hal.sane hal.grow
  obtain ⟨hext₂, hleaf₂⟩ := hext₁.space.mapPage (by decide) hmap
  have hown : ∀ x ∈ span f (4096 * ph.pages), x ∉ own := fun x hx => h.sane.apart x (hal.free x hx)
  refine ⟨hal.aligned, hal.free, fun x hx => hext₂.grow.held x (hal.held x hx), hown,
    fun x hx hx' => ?_, fun x hx hzero => ?_, hext₁.trans hext₂, fun w => ?_⟩
  · exact (h.held x (hext₂.old x hx' (hal.held x hx))).not_free (hal.free x hx)
  · rw [hext₂.grow.ram x (hal.held x hx) (hown x hx) fun hx' => (h.held x hx').not_free (hal.free x hx)]
    exact hal.zero x hx hzero
  · rw [hleaf₂ w, hleaf₁ w]
    rfl

theorem loadPhdr_ok (h : Space own root used s) (hl : ph.Loads) (hfit : ph.Fits)
    (hc : loadPhdr root s ph = some s') :
    ∃ g : Segment, (∃ s₁, s.alloc ph.pages = some (g.addr, s₁)) ∧ g.phdr = ph ∧
      ∃ used', Extended own root used s used' s' ∧ Placed s used' s' g ∧
        ∀ w, leaf s'.ram root w = if SamePage ph.pVaddr w then some (g.call root).entry
          else leaf s.ram root w := by
  rw [loadPhdr, if_pos hl] at hc
  simp only [Option.bind_eq_bind, Option.bind_eq_some_iff] at hc
  obtain ⟨⟨f, s₁⟩, halloc, ⟨s₂, new⟩, hmap, hc⟩ := hc
  obtain rfl := Option.some.inj hc
  have hres := segment_reserved h halloc hmap
  -- the copy stays in the block
  have hsub : ∀ x ∈ span f ph.pFilesz, x ∈ span f (4096 * ph.pages) := fun x hx =>
    span_subset (le_refl f) (Nat.add_le_add_left (hfit hl) f) hx
  have hcopy : ∀ x ∉ span f ph.pFilesz,
      copyIn s₂.ram f ph.source ph.pOffset ph.pFilesz x = s₂.ram x := fun x hx =>
    (copyIn_apply ..).trans (if_neg hx)
  obtain ⟨hext', hleaf⟩ := hres.extended.write hcopy (fun x hx => hres.free x (hsub x hx))
    (fun x hx => hres.held x (hsub x hx)) (fun x hx => hres.outside x (hsub x hx)) fun x hx =>
      hres.apart x (hsub x hx)
  refine ⟨⟨ph, f⟩, ⟨s₁, halloc⟩, rfl, used ++ new, hext',
    ⟨hres.aligned, hres.free, fun x hx => ?_, hres.apart, ?_, ?_⟩, fun w => ?_⟩
  · obtain ⟨-, hgrow⟩ :=
      hres.extended.space.sane.write hcopy (fun x hx => hres.held x (hsub x hx)) fun x hx =>
      hres.outside x (hsub x hx)
    exact hgrow.held x (hres.held x hx)
  · rintro o (ho : o < ph.pFilesz)
    show copyIn s₂.ram f ph.source ph.pOffset ph.pFilesz (f + o) = _
    rw [copyIn_apply, if_pos (by omega), Nat.add_sub_cancel_left]
  · rintro o (ho : ph.pFilesz ≤ o) (hlt : o < 4096 * ph.pages) hzero
    show copyIn s₂.ram f ph.source ph.pOffset ph.pFilesz (f + o) = 0
    rw [copyIn_apply, if_neg (by omega)]
    exact hres.ram _ ⟨by simp only; omega, by simp only; omega⟩ hzero
  · show leaf (copyIn s₂.ram f ph.source ph.pOffset ph.pFilesz) root w = _
    rw [hleaf w, hres.leaf w]

theorem Placed.grow {used'' : List Nat} {s'' : PhysicalMemory} {g : Segment} (hs : Sane own s)
    (h : Placed s used' s' g) (hext : Extended own root used' s' used'' s'')
    (hfit : g.phdr.pFilesz ≤ 4096 * g.phdr.pages) :
    Placed s used'' s'' g := by
  have hram : ∀ o < 4096 * g.phdr.pages, s''.ram (g.addr + o) = s'.ram (g.addr + o) := by
    intro o ho
    have hmem : g.addr + o ∈ g.block := ⟨by omega, by omega⟩
    exact hext.grow.ram _ (h.held _ hmem) (hs.apart _ (h.free _ hmem)) (h.apart _ hmem)
  refine ⟨h.aligned, h.free, fun x hx => hext.grow.held x (h.held x hx),
    fun x hx hx' => ?_, fun o ho => ?_, fun o ho hlt hzero => ?_⟩
  · exact h.apart x hx (hext.old x hx' (h.held x hx))
  · rw [hram o (by omega), h.copied o ho]
  · rw [hram o hlt, h.rest o ho hlt hzero]

theorem Placed.earlier {s₁ : PhysicalMemory} {W : Set Nat} {g : Segment} (h : Placed s₁ used' s' g)
    (hg : Grow own W s s₁) : Placed s used' s' g where
  aligned := h.aligned
  free x hx := (hg.free x (h.free x hx)).1
  held := h.held
  apart := h.apart
  copied := h.copied
  rest o ho hlt hzero := by
    have hmem : g.addr + o ∈ g.block := ⟨by omega, by omega⟩
    refine h.rest o ho hlt ?_
    rw [(hg.free _ (h.free _ hmem)).2, hzero]

theorem segmentsOf_cons_of_not (hl : ¬ph.Loads) :
    segmentsOf root s (ph :: phs) = segmentsOf root s phs := by
  simp only [segmentsOf, loadPhdr, if_neg hl]

theorem segmentsOf_phdrs (hc : phs.foldlM (loadPhdr root) s = some s') :
    (segmentsOf root s phs).map Segment.phdr = phs.filter (·.Loads) := by
  induction phs generalizing s with
  | nil => rfl
  | cons ph phs ih =>
    rw [List.foldlM_cons, Option.bind_eq_bind, Option.bind_eq_some_iff] at hc
    obtain ⟨s₁, hph, hrest⟩ := hc
    by_cases hl : ph.Loads
    · rw [List.filter_cons_of_pos (by simpa using hl), ← ih hrest]
      have halloc := hph
      rw [loadPhdr, if_pos hl] at halloc
      simp only [Option.bind_eq_bind, Option.bind_eq_some_iff] at halloc
      obtain ⟨a, halloc, -⟩ := halloc
      simp only [segmentsOf, hph, if_pos hl, halloc, Option.map_some, Option.toList_some,
        List.singleton_append, List.map_cons]
    · rw [loadPhdr, if_neg hl] at hph
      obtain rfl := Option.some.inj hph
      rw [segmentsOf_cons_of_not hl, ih hrest, List.filter_cons_of_neg (by simpa using hl)]

theorem loadPhdrs_ok (h : Space own root used s) (hfit : ∀ ph ∈ phs, ph.Fits)
    (hc : phs.foldlM (loadPhdr root) s = some s') :
    ∃ used', Extended own root used s used' s' ∧ (∀ g ∈ segmentsOf root s phs, Placed s used' s' g) ∧
      ∀ w, leaf s'.ram root w =
        ((lastCall ((segmentsOf root s phs).map (Segment.call root)) root w).map MapCall.entry).or
          (leaf s.ram root w) := by
  induction phs generalizing s used with
  | nil =>
    obtain rfl := Option.some.inj hc
    exact ⟨used, .refl h, by simp [segmentsOf], fun _ => rfl⟩
  | cons ph phs ih =>
    rw [List.foldlM_cons, Option.bind_eq_bind, Option.bind_eq_some_iff] at hc
    obtain ⟨s₁, hph, hrest⟩ := hc
    have hfits : ∀ ph ∈ phs, ph.Fits := fun ph hph => hfit ph (List.mem_cons_of_mem _ hph)
    by_cases hl : ph.Loads
    · obtain ⟨g, ⟨s₂, halloc⟩, rfl, used₁, hext₁, hplaced, hleaf₁⟩ :=
        loadPhdr_ok h hl (hfit ph List.mem_cons_self) hph
      obtain ⟨used', hext, hall, hleaf⟩ := ih hext₁.space hfits hrest
      have hsegs : segmentsOf root s (g.phdr :: phs) = g :: segmentsOf root s₁ phs := by
        simp only [segmentsOf, hph, if_pos hl, halloc, Option.map_some, Option.toList_some,
          List.singleton_append]
      refine ⟨used', hext₁.trans hext, ?_, fun w => ?_⟩
      · rw [hsegs]
        rintro g' (_ | ⟨_, hg'⟩)
        · exact hplaced.grow h.sane hext (hfit g.phdr List.mem_cons_self hl)
        · exact (hall g' hg').earlier hext₁.grow
      · rw [hleaf w, hleaf₁ w, hsegs, List.map_cons, lastCall_cons]
        cases lastCall ((segmentsOf root s₁ phs).map (Segment.call root)) root w with
        | some c => rfl
        | none =>
          by_cases hsame : SamePage g.phdr.pVaddr w
          · rw [if_pos hsame, if_pos ⟨rfl, hsame⟩]
            rfl
          · rw [if_neg hsame, if_neg fun h => hsame h.2]
            rfl
    · obtain rfl : s = s₁ := by
        rw [loadPhdr, if_neg hl] at hph
        exact Option.some.inj hph
      obtain ⟨used', hext, hall, hleaf⟩ := ih h hfits hrest
      rw [segmentsOf_cons_of_not hl]
      exact ⟨used', hext, hall, hleaf⟩

end

-- ---------------------------------------------------------------------------
-- What a load asks for
-- ---------------------------------------------------------------------------

/-- The blocks of the segments, and a page for each table that is not there yet. -/
def segmentRequests : List (BitVec 64) → List Elf64Phdr → List Nat
  | _, [] => []
  | seen, ph :: phs =>
    if ph.Loads then
      [ph.pages] ++
        (List.replicate (newTables seen ph.pVaddr) 1 ++ segmentRequests (ph.pVaddr :: seen) phs)
    else segmentRequests seen phs

def loadRequests (boot : BootInfo) (mmap : List LimineMemmapEntry) (phs : List Elf64Phdr) : List Nat :=
  Thread.requests boot mmap ++ segmentRequests (Thread.defaultPages boot mmap).reverse phs

section
variable {own : Set Nat} {root : Nat} {used used' : List Nat} {s s' : PhysicalMemory} {ph : Turn}
  {phs : List Turn} {seen : List (BitVec 64)}

theorem loadPhdr_asks (h : Space own root used s) (hchart : Charted s.ram root seen) (hl : ph.Loads)
    (hfit : ph.Fits) :
    Asks s ([ph.pages] ++ List.replicate (newTables seen ph.pVaddr) 1) (loadPhdr root s ph) id ∧
      ∀ s', loadPhdr root s ph = some s' → Charted s'.ram root (ph.pVaddr :: seen) := by
  have hfits := hfit hl
  -- the copy stays in the block
  have hcopy : ∀ {s₂ : PhysicalMemory} {f : Nat}, ∀ x ∉ span f (4096 * ph.pages),
      copyIn s₂.ram f ph.source ph.pOffset ph.pFilesz x = s₂.ram x := fun x hx =>
    (copyIn_apply ..).trans (if_neg fun hin => hx ⟨hin.1, by omega⟩)
  have hstart : ∀ {f : Nat} {s₁ : PhysicalMemory}, s.alloc ph.pages = some (f, s₁) →
      Space own root used s₁ ∧ Charted s₁.ram root seen := fun halloc => by
    have hal := h.sane.alloc ph.pages_pos halloc
    exact ⟨(h.took hal.sane hal.grow).1.space, h.charted_grow hchart hal.grow (by simp)⟩
  rw [loadPhdr, if_pos hl]
  constructor
  · refine (Asks.alloc h.sane ph.pages_pos).bind ?_
    rintro ⟨f, s₁⟩ halloc
    obtain ⟨hspace, hchart₁⟩ := hstart halloc
    rw [← List.append_nil (List.replicate _ _)]
    refine (hspace.mapPage_asks hchart₁).bind ?_
    rintro ⟨s₂, new⟩ hmap
    have hres := segment_reserved h halloc hmap
    exact .pure fun b hb => hb.write hres.extended.space.sane fun x hx =>
      hcopy x fun hin => hres.outside x hin hx
  · intro s' hc
    simp only [Option.bind_eq_bind, Option.bind_eq_some_iff] at hc
    obtain ⟨⟨f, s₁⟩, halloc, ⟨s₂, new⟩, hmap, hc⟩ := hc
    obtain rfl := Option.some.inj hc
    obtain ⟨hspace, hchart₁⟩ := hstart halloc
    have hres := segment_reserved h halloc hmap
    refine hres.extended.space.charted_congr (hspace.mapPage_charted hchart₁ hmap) fun x hx =>
      hcopy x fun hin => ?_
    exact hres.apart x hin hx

theorem loadPhdrs_asks (h : Space own root used s) (hchart : Charted s.ram root seen)
    (hfit : ∀ ph ∈ phs, ph.Fits) :
    Asks s (segmentRequests seen (phs.map Turn.toElf64Phdr)) (phs.foldlM (loadPhdr root) s) id := by
  induction phs generalizing s used seen with
  | nil => exact .pure fun _ hb => hb
  | cons ph phs ih =>
    have hfits : ∀ ph ∈ phs, ph.Fits := fun ph hph => hfit ph (List.mem_cons_of_mem _ hph)
    rw [List.map_cons, segmentRequests, List.foldlM_cons]
    by_cases hl : ph.Loads
    · obtain ⟨hask, hnext⟩ := loadPhdr_asks h hchart hl (hfit ph List.mem_cons_self)
      rw [if_pos hl, ← List.append_assoc]
      refine hask.bind fun s₁ hph => ?_
      obtain ⟨-, -, -, used₁, hext, -, -⟩ := loadPhdr_ok h hl (hfit ph List.mem_cons_self) hph
      exact ih hext.space (hnext s₁ hph) hfits
    · rw [if_neg hl, loadPhdr, if_neg hl]
      exact ih h hchart hfits

theorem space_asks {boot : BootInfo} {kstackPhys : Nat} {entryPoint : BitVec 64} (hs : Sane own s)
    (hfit : ∀ ph ∈ phs, ph.Fits) :
    Asks s (loadRequests boot s.mmap (phs.map Turn.toElf64Phdr))
      ((Thread.construct boot kstackPhys s entryPoint true).bind fun r =>
        phs.foldlM (loadPhdr r.1.rootTable) r.2) id := by
  obtain ⟨hask, hchart⟩ := @Thread.construct_asks own boot kstackPhys s entryPoint true hs
  refine hask.bind ?_
  rintro ⟨t, s'⟩ hc
  obtain ⟨-, used, stackAddr, hcons⟩ := Thread.construct_ok hs hc
  exact loadPhdrs_asks hcons.space (hchart t s' hc) hfit

-- ---------------------------------------------------------------------------
-- When a load succeeds
-- ---------------------------------------------------------------------------

theorem reserve_isSome {last : Nat} (h : Space own root used s) (hstock : Stock own s last)
    (ph : Turn) (hlast : s.lastI + (ph.pages + 3) ≤ last) :
    ∃ f s₁ s₂ new, s.alloc ph.pages = some (f, s₁) ∧
      mapPage s₁ root ph.pVaddr (BitVec.ofNat 64 f) Thread.userFlags = some (s₂, new) ∧
      Stock own s₂ last ∧ s₂.lastI ≤ s.lastI + (ph.pages + 3) := by
  obtain ⟨f, s₁, halloc, hal, hstock₁, hcursor⟩ := hstock.allocated h.sane ph.pages_pos (by omega)
  obtain ⟨hext₁, -⟩ := h.took hal.sane hal.grow
  obtain ⟨place, hm⟩ := hext₁.space.mapped
  obtain ⟨s₂, new, hmap, -, -, hstock₂, hle, -⟩ :=
    mapPage_isSome ph.pVaddr (BitVec.ofNat 64 f) Thread.userFlags hm
    (List.mem_singleton_self root) hstock₁ (hext₁.space.stock_unused hstock₁) hext₁.space.nodup
      (by omega)
  exact ⟨f, s₁, s₂, new, halloc, hmap, hstock₂, by omega⟩

theorem loadPhdrs_isSome {last : Nat} (h : Space own root used s) (hstock : Stock own s last)
    (hfit : ∀ ph ∈ phs, ph.Fits) (hlast : s.lastI + (phs.map fun ph => ph.pages + 3).sum ≤ last) :
    ∃ s', phs.foldlM (loadPhdr root) s = some s' := by
  induction phs generalizing s used with
  | nil => exact ⟨s, rfl⟩
  | cons ph phs ih =>
    rw [List.map_cons, List.sum_cons] at hlast
    have hfits : ∀ ph ∈ phs, ph.Fits := fun ph hph => hfit ph (List.mem_cons_of_mem _ hph)
    by_cases hl : ph.Loads
    · obtain ⟨f, s₁, s₂, new, halloc, hmap, hstock₂, hle⟩ := reserve_isSome h hstock ph (by omega)
      have hph : loadPhdr root s ph =
          some { s₂ with ram := copyIn s₂.ram f ph.source ph.pOffset ph.pFilesz } := by
        simp only [loadPhdr, if_pos hl, Option.bind_eq_bind, halloc, hmap, Option.bind_some]
      obtain ⟨-, -, -, used', hext, -, -⟩ := loadPhdr_ok h hl (hfit ph List.mem_cons_self) hph
      have hstock' : Stock own { s₂ with ram := copyIn s₂.ram f ph.source ph.pOffset ph.pFilesz }
          last := by
        refine hstock₂.write fun x hx => (copyIn_apply ..).trans (if_neg fun hin => ?_)
        have hfits' := hfit ph List.mem_cons_self hl
        exact (segment_reserved h halloc hmap).outside x ⟨hin.1, by simp only; omega⟩ hx
      obtain ⟨s', hrest⟩ := ih hext.space hstock' hfits (by simp only; omega)
      exact ⟨s', by rw [List.foldlM_cons, hph]; exact hrest⟩
    · obtain ⟨s', hrest⟩ := ih h hstock hfits (by omega)
      refine ⟨s', ?_⟩
      rw [List.foldlM_cons, loadPhdr, if_neg hl]
      exact hrest

end

/-- A heap that has room left, so that it takes no pages. -/
def heapWithRoom : New := fun s size => some (0xffff800000100000 + size, s)

/-- What the loader and the constructor take before the loop over the
headers. -/
abbrev Kernel.loadPages (k : Kernel) : Nat :=
  Thread.stackPages + 1 + 3 * ((Thread.windows k.boot k.pmm.mmap 0 0).map Window.pages).sum

section
variable {own : Set Nat} {around : Nat → Mem} {k : Kernel} {path : CStr} {last : Nat}

theorem enterLoop_isSome (hs : Sane own k.pmm) (hstock : Stock own k.pmm last)
    (hopen : 0 ≤ (k.vfs.openFile path).1.toInt)
    (hmagic : (readHeader (k.vfs.fileLooks around path 0)).eIdent = elfMagic)
    (hlast : k.pmm.lastI + k.loadPages ≤ last) :
    ∃ t thread s used, k.enterLoop heapWithRoom around path = some (t, thread, s) ∧
      Space own thread.rootTable used s ∧
      Stock own s last ∧ s.lastI ≤ k.pmm.lastI + k.loadPages := by
  rw [Kernel.loadPages] at hlast ⊢
  have hroom : k.pmm.lastI + Thread.stackPages + 1 +
      3 * ((Thread.windows k.boot k.pmm.mmap 0 0).map Window.pages).sum ≤ last := by omega
  obtain ⟨thread, s, hcons, hstock', hle⟩ := Thread.construct_isSome k.sched.getCurCPU.kstackPhys
    (readHeader (k.vfs.fileLooks around path 1)).eEntry true hs hstock hroom
  obtain ⟨-, used, stackAddr, hconstructed⟩ := Thread.construct_ok hs hcons
  refine ⟨0xffff800000100000 + threadSize, thread, s, used, ?_, hconstructed.space, hstock', by omega⟩
  simp only [Kernel.enterLoop, if_neg (not_lt.mpr hopen), heapWithRoom, Option.bind_eq_bind,
    Option.bind_some, if_neg (not_not.mpr hmagic), hcons]

theorem load_isSome (hs : Sane own k.pmm) (hstock : Stock own k.pmm last)
    (hopen : 0 ≤ (k.vfs.openFile path).1.toInt)
    (hmagic : (readHeader (k.vfs.fileLooks around path 0)).eIdent = elfMagic)
    (hfit : ∀ ph ∈ k.vfs.turns around path, ph.Fits)
    (hlast : k.pmm.lastI + k.loadPages +
      ((k.vfs.turns around path).map fun ph => ph.pages + 3).sum ≤ last) :
    ∃ k', loadAndExecuteElf heapWithRoom around k path = some (0, k') := by
  obtain ⟨t, thread, s, used, henter, hspace, hstock', hle⟩ :=
    enterLoop_isSome hs hstock hopen hmagic (by omega)
  obtain ⟨s', hsegments⟩ := loadPhdrs_isSome hspace hstock' hfit (by omega)
  rw [loadAndExecuteElf_of_enterLoop henter, hsegments]
  exact ⟨_, rfl⟩

end

-- ---------------------------------------------------------------------------
-- An executable with one segment
-- ---------------------------------------------------------------------------

/-- The bytes of an executable with one loadable header, whose segment follows
the header. -/
def elfFile (vaddr filesz memsz : Nat) (segment : List Byte) : List Byte :=
  elfMagic ++ List.replicate 28 0 ++ bytesLE 8 64 ++ List.replicate 16 0 ++ bytesLE 2 1 ++
    List.replicate 6 0 ++
    bytesLE 8 1 ++ bytesLE 8 120 ++ bytesLE 8 vaddr ++ List.replicate 8 0 ++ bytesLE 8 filesz ++
      bytesLE 8 memsz ++
    List.replicate 8 0 ++ segment

/-- A machine with 512 GiB of zeroed memory, its bitmap above them, and `file`
as the file `t` of its initrd. -/
def elfMachine (file : List Byte) : Kernel where
  vfs := VFS.mounted [0x2f]
    { mem := fun a => file.getD (a - 0x1000) 0
      files := [{ data := 0x1000, size := BitVec.ofNat 32 file.length, name := cstr [0x74] }] }
  pmm :=
    { ram := fun _ => 0
      mmap := [⟨0xfd000000, 0x1000, limineMemmapFramebuffer⟩]
      bitmap := ⟨0x10000000000⟩
      highestAddr := 0x8000000000
      lastI := 1 }
  sched := { threads := fun _ => .build 0 false 0, curCpu := 0 }
  boot := ⟨0x1000, 0xffffffff80000000, 0x200000, 0xffff8000fd000000, 0xffff800000000000⟩

def pathT : CStr := cstr [0x2f, 0x74]

def strayBytes : Nat → Mem := fun _ _ => 0xcc

section
variable {file : List Byte} {around : Nat → Mem}

abbrev elfMachineOwn : Set Nat := Bitmap.bytes ⟨0x10000000000⟩ (0x8000000000 / 4096)

theorem elfMachine_sane : Sane elfMachineOwn (elfMachine file).pmm where
  bitmap := rfl
  inSpace := by show 0x8000000000 ≤ 2 ^ 63; omega
  cursor := by show 1 ≤ 0x8000000000 / 4096; omega
  apart x hx hown := by
    have hlt : x / 4096 < 0x8000000000 / 4096 := hx.1
    have hge : 0x10000000000 ≤ x := hown.1
    omega

theorem elfMachine_stock : Stock elfMachineOwn (elfMachine file).pmm 0x8000000 where
  clear i _ _ := by simp [Bitmap.get, elfMachine]
  frames i _ h := ⟨by omega, by omega, span_disjoint (by simp only; omega)⟩
  nonzero := by show 1 ≠ 0; decide
  fits := by show 0x8000000 ≤ 0x8000000000 / 4096; decide
  bitmap := rfl
  inSpace := by show 0x8000000000 < 2 ^ 64; omega

theorem elfMachine_copied (hlen : file.length < 2 ^ 32) :
    ((elfMachine file).vfs.fileCopy pathT).map Copy.bytes = some file := by
  have hresolve : (elfMachine file).vfs.resolve pathT = some (initrdFilesystem [0x2f], 0) := by
    show (elfMachine []).vfs.resolve pathT = some (initrdFilesystem [0x2f], 0)
    rfl
  have hlookup : (elfMachine file).vfs.world.lookup (pathT.skip 1) = some 0 := by
    show (elfMachine []).vfs.world.names.findIdx?
      (fun name => strncmp name (pathT.skip 1) 128 = 0) = some 0
    decide +kernel
  have hdata : 0x1000 ≠ 0 := by decide
  rw [VFS.fileCopy_eq hresolve hlookup
    (show _ = some ⟨0x1000, BitVec.ofNat 32 file.length, cstr [0x74], 0⟩ from rfl)
    hdata, Option.map_some, Initrd.contents]
  have hsize : (BitVec.ofNat 32 file.length).toNat = file.length := by
    rw [BitVec.toNat_ofNat, Nat.mod_eq_of_lt hlen]
  refine congrArg some (List.ext_getElem (by simp [hsize]) fun i h₁ h₂ => ?_)
  rw [List.getElem_map, List.getElem_range]
  show file.getD ((0x1000 + i) % 2 ^ 64 - 0x1000) 0 = file[i]
  rw [Nat.mod_eq_of_lt (by omega), Nat.add_sub_cancel_left, List.getD_eq_getElem?_getD,
    List.getElem?_eq_getElem h₂, Option.getD_some]

theorem elfMachine_loadPages (file : List Byte) : (elfMachine file).loadPages = 3211334 := by
  show (elfMachine []).loadPages = 3211334
  decide +kernel

theorem elfMachine_load (file : List Byte) {ph : Elf64Phdr}
    (hopen : 0 ≤ ((elfMachine file).vfs.openFile pathT).1.toInt)
    (hmagic : (readHeader ((elfMachine file).vfs.fileLooks around pathT 0)).eIdent = elfMagic)
    (hphdrs : ((elfMachine file).vfs.turns around pathT).map Turn.toElf64Phdr = [ph]) (hfit : ph.Fits)
    (hpages : ph.pages ≤ 0x100000) :
    ∃ k', loadAndExecuteElf heapWithRoom around (elfMachine file) pathT = some (0, k') := by
  have hpages' : (((elfMachine file).vfs.turns around pathT).map fun turn => turn.pages + 3) =
      [ph.pages + 3] := by
    have hmap := congrArg (List.map fun ph : Elf64Phdr => ph.pages + 3) hphdrs
    rwa [List.map_map] at hmap
  refine load_isSome elfMachine_sane elfMachine_stock hopen hmagic ?_ ?_
  · rw [forall_turns_iff (P := Elf64Phdr.Fits), hphdrs]
    simpa using hfit
  · rw [elfMachine_loadPages, hpages']
    show 1 + 3211334 + [ph.pages + 3].sum ≤ _
    rw [List.sum_singleton]
    omega

end

def lowFile : List Byte := elfFile 0x400000 4 4 [1, 2, 3, 4]

def kernelFile : List Byte := elfFile 0xffffffff80000000 4 4 [1, 2, 3, 4]

section
variable {around : Nat → Mem}

theorem lowFile_copied : ((elfMachine lowFile).vfs.fileCopy pathT).map Copy.bytes = some lowFile :=
  elfMachine_copied (by decide +kernel)

theorem kernelFile_copied :
    ((elfMachine kernelFile).vfs.fileCopy pathT).map Copy.bytes = some kernelFile :=
  elfMachine_copied (by decide +kernel)

theorem lowFile_phdrs :
    ((elfMachine lowFile).vfs.turns around pathT).map Turn.toElf64Phdr = [⟨1, 120, 0x400000, 4, 4⟩] :=
  (VFS.turns_eq lowFile_copied (by decide +kernel) (by decide +kernel) (by decide +kernel)).trans
    (by decide +kernel)

theorem kernelFile_phdrs :
    ((elfMachine kernelFile).vfs.turns around pathT).map Turn.toElf64Phdr =
      [⟨1, 120, 0xffffffff80000000, 4, 4⟩] :=
  (VFS.turns_eq kernelFile_copied (by decide +kernel) (by decide +kernel) (by decide +kernel)).trans
    (by decide +kernel)

theorem lowFile_load :
    ∃ k', loadAndExecuteElf heapWithRoom around (elfMachine lowFile) pathT = some (0, k') :=
  elfMachine_load lowFile (by decide +kernel)
    ((VFS.ident_eq lowFile_copied (by decide +kernel) (by decide +kernel)).trans
      (by decide +kernel)) lowFile_phdrs
    (fun _ => by decide) (by decide)

theorem kernelFile_load :
    ∃ k', loadAndExecuteElf heapWithRoom around (elfMachine kernelFile) pathT = some (0, k') :=
  elfMachine_load kernelFile (by decide +kernel)
    ((VFS.ident_eq kernelFile_copied (by decide +kernel) (by decide +kernel)).trans
      (by decide +kernel)) kernelFile_phdrs
    (fun _ => by decide) (by decide)

theorem lowFile_fits : ∀ ph ∈ (elfMachine lowFile).vfs.turns around pathT, ph.Fits := by
  rw [forall_turns_iff (P := Elf64Phdr.Fits), lowFile_phdrs]
  decide

theorem kernelFile_fits : ∀ ph ∈ (elfMachine kernelFile).vfs.turns around pathT, ph.Fits := by
  rw [forall_turns_iff (P := Elf64Phdr.Fits), kernelFile_phdrs]
  decide

end

end LimineOS
