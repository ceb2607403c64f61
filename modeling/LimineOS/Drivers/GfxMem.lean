import LimineOS.Lib.Masks

/-!
# Graphics memory

`GfxAlloc` moves a pointer through the aperture and never looks at its end. It
aligns the address of the CPU. That of the GPU counts from `gfxMemBase`, which
is 2 KiB off a page.
-/

namespace LimineOS

open BitMask

structure GfxObject where
  cpuAddr : BitVec 64
  gfxAddr : BitVec 64

structure GfxMemRange where
  base : BitVec 64
  top : BitVec 64
  current : BitVec 64

structure GfxMemManager where
  vram : GfxMemRange
  shared : GfxMemRange
  private_ : GfxMemRange
  gfxMemBase : BitVec 64
  gfxMemNext : BitVec 64

/-- The writes to the fence registers are left out. -/
def GfxInitMemManager (arpertureBar hhdmOffset : BitVec 64)
    (stolenMemSize gttMappableEntries : BitVec 32) : GfxMemManager :=
  let gfxMemBase := arpertureBar + 0x400800 + hhdmOffset
  { vram := { base := 0, current := 0, top := stolenMemSize.setWidth 64 }
    shared := {
      base := stolenMemSize.setWidth 64
      current := stolenMemSize.setWidth 64
      top := (gttMappableEntries <<< 12).setWidth 64 }
    private_ := {
      base := (gttMappableEntries <<< 12).setWidth 64
      current := (gttMappableEntries <<< 12).setWidth 64
      top := gttMappableEntries.setWidth 64 <<< 12 }
    gfxMemBase
    gfxMemNext := gfxMemBase + 4 * (1 <<< 12) }

def alignedAddr (cpuAddr : BitVec 64) (align : BitVec 32) : BitVec 64 :=
  let offset := cpuAddr &&& (align - 1).setWidth 64
  if offset ≠ 0 then cpuAddr + (align.setWidth 64 - offset) else cpuAddr

def GfxAlloc (mem_manager : GfxMemManager) (size align : BitVec 32) :
    Bool × GfxObject × GfxMemManager :=
  let cpuAddr := alignedAddr mem_manager.gfxMemNext align
  (true, ⟨cpuAddr, cpuAddr - mem_manager.gfxMemBase⟩,
    { mem_manager with gfxMemNext := cpuAddr + size.setWidth 64 })

-- ---------------------------------------------------------------------------
-- Runs
-- ---------------------------------------------------------------------------

structure Aperture where
  base : BitVec 64
  size : BitVec 64
  hhdmOffset : BitVec 64
  aligned : base.toNat % size.toNat = 0
  page_aligned : hhdmOffset.toNat % 4096 = 0

structure GfxRequest where
  size : BitVec 32
  order : Nat
  order_lt : order < 32

def GfxRequest.align (r : GfxRequest) : BitVec 32 := BitVec.ofNat 32 (2 ^ r.order)

structure GfxCall where
  request : GfxRequest
  before : GfxMemManager
  success : Bool
  obj : GfxObject
  after : GfxMemManager

def gfxCall (m : GfxMemManager) (r : GfxRequest) : GfxCall :=
  let (success, obj, after) := GfxAlloc m r.size r.align
  { request := r, before := m, success, obj, after }

def gfxCalls : List GfxRequest → GfxMemManager → List GfxCall
  | [], _ => []
  | r :: rs, m => gfxCall m r :: gfxCalls rs (gfxCall m r).after

namespace Aperture

def start (a : Aperture) : BitVec 64 := a.base + a.hhdmOffset

def offset (a : Aperture) (p : BitVec 64) : Nat := (p - a.start).toNat

def Fits (a : Aperture) (m : GfxMemManager) (r : GfxRequest) : Prop :=
  ∃ o, a.offset m.gfxMemNext ≤ o ∧ (a.start + BitVec.ofNat 64 o).toNat % 2 ^ r.order = 0 ∧
    o + r.size.toNat ≤ a.size.toNat

structure Served (a : Aperture) (c : GfxCall) : Prop where
  aligned : c.success = true → a.base.toNat % 2 ^ c.request.order = 0 →
    c.obj.cpuAddr.toNat % 2 ^ c.request.order = 0 ∧ c.obj.gfxAddr.toNat % 2 ^ c.request.order = 0
  inside : c.success = true → a.offset c.obj.cpuAddr + c.request.size.toNat ≤ a.size.toNat
  refused : ¬a.Fits c.before c.request → c.success = false ∧ c.after = c.before

def Apart (a : Aperture) (c d : GfxCall) : Prop :=
  c.success = true → d.success = true →
    a.offset c.obj.cpuAddr + c.request.size.toNat ≤ a.offset d.obj.cpuAddr ∨
      a.offset d.obj.cpuAddr + d.request.size.toNat ≤ a.offset c.obj.cpuAddr

def Sound (a : Aperture) (cs : List GfxCall) : Prop := (∀ c ∈ cs, a.Served c) ∧ cs.Pairwise a.Apart

def Modest (a : Aperture) (c : GfxCall) : Prop :=
  a.Fits c.before c.request ∧ (a.base.toNat % 2 ^ c.request.order = 0 → c.request.order ≤ 11)

end Aperture

-- ---------------------------------------------------------------------------
-- One call
-- ---------------------------------------------------------------------------

section
variable {a : Aperture} {m : GfxMemManager} {r : GfxRequest} {rs : List GfxRequest} {c : GfxCall}
  {p : BitVec 64} {o : Nat}

theorem GfxRequest.align_toNat : r.align.toNat = 2 ^ r.order := by
  rw [align, BitVec.toNat_ofNat, Nat.mod_eq_of_lt (Nat.pow_lt_pow_right (by decide) r.order_lt)]

theorem GfxRequest.align_sub_one : ((r.align - 1).setWidth 64).toNat = 2 ^ r.order - 1 := by
  have hpos : 0 < 2 ^ r.order := Nat.two_pow_pos _
  have hlt : 2 ^ r.order < 2 ^ 32 := Nat.pow_lt_pow_right (by decide) r.order_lt
  rw [BitVec.toNat_setWidth_of_le (by decide), BitVec.toNat_sub, align_toNat]
  generalize 2 ^ r.order = n at *
  show (2 ^ 32 - 1 + n) % 2 ^ 32 = _
  omega

theorem alignedAddr_eq : alignedAddr p r.align = p + BitVec.ofNat 64 (padding r.order p.toNat) := by
  have hoffset : (p &&& (r.align - 1).setWidth 64).toNat = p.toNat % 2 ^ r.order :=
    toNat_and_low r.align_sub_one
  have hmod : p.toNat % 2 ^ r.order < 2 ^ r.order := Nat.mod_lt _ (Nat.two_pow_pos _)
  have hlt : 2 ^ r.order < 2 ^ 32 := Nat.pow_lt_pow_right (by decide) r.order_lt
  rw [alignedAddr, padding]
  by_cases hzero : p &&& (r.align - 1).setWidth 64 = 0
  · rw [hzero] at hoffset
    rw [if_neg (not_not.mpr hzero), ← hoffset]
    show p = p + BitVec.ofNat 64 ((2 ^ r.order - 0) % 2 ^ r.order)
    rw [Nat.sub_zero, Nat.mod_self, BitVec.add_zero]
  · have hne : p.toNat % 2 ^ r.order ≠ 0 := fun h => hzero (BitVec.eq_of_toNat_eq (hoffset.trans h))
    rw [if_pos hzero]
    refine congrArg (p + ·) (BitVec.eq_of_toNat_eq ?_)
    rw [BitVec.toNat_sub, hoffset, BitVec.toNat_setWidth_of_le (by decide), r.align_toNat,
      BitVec.toNat_ofNat]
    generalize p.toNat % 2 ^ r.order = d at *
    generalize 2 ^ r.order = n at *
    rw [Nat.mod_eq_of_lt (a := n - d) (by omega)]
    omega

theorem toNat_add_mod {p q : BitVec 64} {k : Nat} (hk : k < 32) :
    (p + q).toNat % 2 ^ k = (p.toNat + q.toNat) % 2 ^ k := by
  rw [BitVec.toNat_add, Nat.mod_mod_of_dvd _ (Nat.pow_dvd_pow 2 (by omega))]

theorem toNat_ofNat_mod {n k : Nat} (hk : k < 32) : (BitVec.ofNat 64 n).toNat % 2 ^ k = n % 2 ^ k := by
  rw [BitVec.toNat_ofNat, Nat.mod_mod_of_dvd _ (Nat.pow_dvd_pow 2 (by omega))]

theorem alignedAddr_mod : (alignedAddr p r.align).toNat % 2 ^ r.order = 0 := by
  rw [alignedAddr_eq, toNat_add_mod r.order_lt, Nat.add_mod, toNat_ofNat_mod r.order_lt,
    ← Nat.add_mod, add_padding_mod]

namespace Aperture

theorem offset_add (h : a.offset p + o < 2 ^ 64) :
    a.offset (p + BitVec.ofNat 64 o) = a.offset p + o := by
  have hsub : p + BitVec.ofNat 64 o - a.start = p - a.start + BitVec.ofNat 64 o := by
    rw [BitVec.sub_eq_add_neg, BitVec.sub_eq_add_neg, BitVec.add_assoc,
      BitVec.add_comm (BitVec.ofNat 64 o), BitVec.add_assoc]
  rw [offset] at h ⊢
  rw [hsub, BitVec.toNat_add, BitVec.toNat_ofNat, Nat.add_mod_mod, Nat.mod_eq_of_lt h, offset]

theorem start_add_offset : a.start + BitVec.ofNat 64 (a.offset p) = p := by
  rw [offset, BitVec.ofNat_toNat, BitVec.setWidth_eq, BitVec.add_comm, BitVec.sub_add_cancel]

theorem padding_le_of_fits (hle : a.offset p ≤ o)
    (ho : (a.start + BitVec.ofNat 64 o).toNat % 2 ^ r.order = 0) :
    a.offset p + padding r.order p.toNat ≤ o := by
  have hsplit : a.start + BitVec.ofNat 64 o = p + BitVec.ofNat 64 (o - a.offset p) :=
    calc a.start + BitVec.ofNat 64 o
      _ = a.start + (BitVec.ofNat 64 (a.offset p) + BitVec.ofNat 64 (o - a.offset p)) := by
        rw [← BitVec.ofNat_add, Nat.add_sub_cancel' hle]
      _ = p + BitVec.ofNat 64 (o - a.offset p) := by rw [← BitVec.add_assoc, start_add_offset]
  rw [hsplit, toNat_add_mod r.order_lt, Nat.add_mod, toNat_ofNat_mod r.order_lt, ← Nat.add_mod] at ho
  have := padding_le ho
  omega

theorem call_fits (h : a.Fits m r) :
    a.offset m.gfxMemNext ≤ a.offset (gfxCall m r).obj.cpuAddr ∧
      a.offset (gfxCall m r).obj.cpuAddr + r.size.toNat ≤ a.size.toNat ∧
      a.offset (gfxCall m r).after.gfxMemNext = a.offset (gfxCall m r).obj.cpuAddr + r.size.toNat := by
  obtain ⟨o, hle, ho, hsize⟩ := h
  have hpad := padding_le_of_fits hle ho
  have hlt := a.size.isLt
  have hcpu : a.offset (gfxCall m r).obj.cpuAddr = a.offset m.gfxMemNext +
      padding r.order m.gfxMemNext.toNat := by
    show a.offset (alignedAddr m.gfxMemNext r.align) = _
    rw [alignedAddr_eq, offset_add (by omega)]
  have hwide : r.size.setWidth 64 = BitVec.ofNat 64 r.size.toNat := by
    rw [BitVec.ofNat_toNat]
  have hnext : a.offset (gfxCall m r).after.gfxMemNext = a.offset (gfxCall m r).obj.cpuAddr +
      r.size.toNat := by
    show a.offset ((gfxCall m r).obj.cpuAddr + r.size.setWidth 64) = _
    rw [hwide, offset_add (by omega)]
  exact ⟨by omega, by omega, hnext⟩

-- ---------------------------------------------------------------------------
-- The address of the GPU
-- ---------------------------------------------------------------------------

/-- `gfxMemBase` is off a page by 2 KiB. -/
theorem gfxMemBase_mod {k : Nat} (hk : k < 32) (hbase : a.base.toNat % 2 ^ k = 0) :
    (a.base + 0x400800 + a.hhdmOffset).toNat % 2 ^ k = 0 ↔ k ≤ 11 := by
  have hpage := a.page_aligned
  have hsum : (a.base + 0x400800 + a.hhdmOffset).toNat % 2 ^ k = (0x400800 + a.hhdmOffset.toNat) %
      2 ^ k := by
    rw [toNat_add_mod hk, Nat.add_mod, toNat_add_mod hk, Nat.add_mod a.base.toNat, hbase,
      Nat.zero_add, Nat.mod_mod, ← Nat.add_mod]
    rfl
  rw [hsum]
  constructor
  · intro h
    by_contra hlt
    have hfour : (0x400800 + a.hhdmOffset.toNat) % 4096 = 0 :=
      Nat.mod_eq_zero_of_dvd ((Nat.pow_dvd_pow 2 (by omega : 12 ≤ k)).trans (Nat.dvd_of_mod_eq_zero h))
    omega
  · intro hle
    refine Nat.mod_eq_zero_of_dvd (Nat.dvd_trans (Nat.pow_dvd_pow 2 hle) (Nat.dvd_of_mod_eq_zero ?_))
    show (0x400800 + a.hhdmOffset.toNat) % 2048 = 0
    omega

theorem sub_mod_iff {p q : BitVec 64} {k : Nat} (hk : k < 32) (hp : p.toNat % 2 ^ k = 0) :
    (p - q).toNat % 2 ^ k = 0 ↔ q.toNat % 2 ^ k = 0 := by
  have hsum : ((p - q).toNat + q.toNat) % 2 ^ k = 0 := by
    rw [← toNat_add_mod hk, BitVec.sub_add_cancel, hp]
  constructor
  · intro h
    rwa [Nat.add_mod, h, Nat.zero_add, Nat.mod_mod] at hsum
  · intro h
    rwa [Nat.add_mod, h, Nat.add_zero, Nat.mod_mod] at hsum

theorem served_iff (hbase : m.gfxMemBase = a.base + 0x400800 + a.hhdmOffset) :
    a.Served (gfxCall m r) ↔ a.Modest (gfxCall m r) := by
  have hgfx (haligned : a.base.toNat % 2 ^ r.order = 0) :
      (gfxCall m r).obj.gfxAddr.toNat % 2 ^ r.order = 0 ↔ r.order ≤ 11 := by
    refine (sub_mod_iff r.order_lt alignedAddr_mod).trans ?_
    rw [hbase]
    exact gfxMemBase_mod r.order_lt haligned
  constructor
  · intro h
    refine ⟨?_, fun haligned => (hgfx haligned).mp (h.aligned rfl haligned).2⟩
    by_contra hfits
    exact Bool.noConfusion (h.refused hfits).1
  · rintro ⟨hfits, hmodest⟩
    exact {
      aligned := fun _ haligned => ⟨alignedAddr_mod, (hgfx haligned).mpr (hmodest haligned)⟩
      inside := fun _ => (call_fits hfits).2.1
      refused := fun h => absurd hfits h
    }

-- ---------------------------------------------------------------------------
-- Any sequence of calls
-- ---------------------------------------------------------------------------

theorem gfxCalls_served (hbase : m.gfxMemBase = a.base + 0x400800 + a.hhdmOffset) :
    (∀ c ∈ gfxCalls rs m, a.Served c) ↔ ∀ c ∈ gfxCalls rs m, a.Modest c := by
  induction rs generalizing m with
  | nil => simp [gfxCalls]
  | cons r rs ih =>
    rw [gfxCalls, List.forall_mem_cons, List.forall_mem_cons]
    exact and_congr (served_iff hbase) (ih hbase)

theorem gfxCalls_apart (h : ∀ c ∈ gfxCalls rs m, a.Fits c.before c.request) :
    (∀ c ∈ gfxCalls rs m, a.offset m.gfxMemNext ≤ a.offset c.obj.cpuAddr) ∧
      (gfxCalls rs m).Pairwise a.Apart := by
  induction rs generalizing m with
  | nil => simp [gfxCalls]
  | cons r rs ih =>
    rw [gfxCalls, List.forall_mem_cons] at h
    have hfits : a.Fits m r := h.1
    obtain ⟨hle, -, hnext⟩ := call_fits hfits
    obtain ⟨hafter, hapart⟩ := ih h.2
    rw [gfxCalls, List.forall_mem_cons, List.pairwise_cons]
    refine ⟨⟨hle, fun c hc => ?_⟩, fun c hc _ _ => .inl ?_, hapart⟩
    · have := hafter c hc
      omega
    · exact hnext ▸ hafter c hc

theorem sound_iff (a : Aperture) (stolenMemSize gttMappableEntries : BitVec 32) (rs : List GfxRequest) :
    a.Sound (gfxCalls rs (GfxInitMemManager a.base a.hhdmOffset stolenMemSize gttMappableEntries)) ↔
      ∀ c ∈ gfxCalls rs (GfxInitMemManager a.base a.hhdmOffset stolenMemSize gttMappableEntries),
        a.Modest c := by
  refine Iff.trans ⟨And.left, fun h => ⟨h, ?_⟩⟩ (gfxCalls_served rfl)
  exact (gfxCalls_apart fun c hc => ((gfxCalls_served rfl).mp h c hc).1).2

def quarterGigabyte : Aperture := ⟨0xc0000000, 0x10000000, 0xffff800000000000, by decide, by decide⟩

/-- The first request of `IntelGpu::Initialize`. -/
def surface : GfxRequest := ⟨0x1000000, 18, by decide⟩

theorem surface_not_sound :
    ¬quarterGigabyte.Sound
      (gfxCalls [surface] (GfxInitMemManager 0xc0000000 0xffff800000000000 0 0)) := by
  intro h
  have hserved := h.1 (gfxCall (GfxInitMemManager 0xc0000000 0xffff800000000000 0 0) surface)
    (List.mem_singleton_self _)
  exact absurd (hserved.aligned rfl (by decide)).2 (by decide)

end Aperture

end

end LimineOS
