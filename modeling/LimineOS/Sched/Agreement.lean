import LimineOS.Mm.DirectMap
import LimineOS.Sched.ThreadSpace

/-!
# Whether the address spaces agree

`VirtualMemory::Initialize` and the constructor of `Thread` map the kernel, the
direct map and the framebuffer in different orders, and a thread has two stacks
besides. Where two windows cover a page the last one mapped decides, so a
thread's space agrees with `kernelDir` exactly when the windows that the two
orders decide differently are compatible there.
-/

namespace LimineOS

open ByteMemory PhysicalMemory VirtualMemory

def Alike (e e' : BitVec 64) : Prop := entryAddr e = entryAddr e' ∧ e &&& permMask = e' &&& permMask

/-- Each page that the first table maps, the second maps alike. -/
def Agrees (ram : Mem) (dir root : Nat) : Prop :=
  ∀ v tr, walk ram dir v = some tr →
    ∃ tr', walk ram root v = some tr' ∧ entryAddr tr'.leaf = entryAddr tr.leaf ∧ tr'.perms = tr.perms

/-- The overlaps that the two orders decide differently. The framebuffer is
mapped over the direct map in `kernelDir` and under it in a thread; the stack
comes after the kernel and the framebuffer, and the kernel stack after all. -/
structure Compatible (boot : BootInfo) (mmap : List LimineMemmapEntry) (kstackPhys : Nat) : Prop where
  framebuffer : ∀ v e e', ¬(Thread.kstackWindow kstackPhys).Covers v →
    (framebufferWindow boot mmap).entry v = some e → (directWindow boot).entry v = some e' → Alike e' e
  stack : ∀ v, (Thread.stackWindow 0).Covers v →
    (framebufferWindow boot mmap).Covers v ∨ (kernelWindow boot).Covers v →
    (directWindow boot).Covers v ∨ (Thread.kstackWindow kstackPhys).Covers v
  kstack : ∀ v e e', (Thread.kstackWindow kstackPhys).entry v = some e →
    kernelEntry boot mmap v = some e' → Alike e e'

namespace Thread

def threadEntry (boot : BootInfo) (mmap : List LimineMemmapEntry) (stackAddr kstackPhys : Nat)
    (v : BitVec 64) :
    Option (BitVec 64) :=
  (((((kstackWindow kstackPhys).entry v).or ((directWindow boot).entry v)).or
    ((stackWindow stackAddr).entry v)).or
    ((framebufferWindow boot mmap).entry v)).or ((kernelWindow boot).entry v)

end Thread

section
variable {own W : Set Nat} {boot : BootInfo} {mmap : List LimineMemmapEntry}
  {kstackPhys stackAddr dir root : Nat}
  {used used' : List Nat} {s s₁ s₂ s₃ : PhysicalMemory} {v e e' : BitVec 64} {w : Window}

theorem Alike.refl : Alike e e := ⟨rfl, rfl⟩

theorem Thread.Constructed.threadEntry
    (h : Thread.Constructed own boot kstackPhys s root s₁ used stackAddr)
    (v : BitVec 64) :
    VirtualMemory.leaf s₁.ram root v = Thread.threadEntry boot s.mmap stackAddr kstackPhys v := by
  rw [h.leaf v, Thread.defaultCalls, lastCall_flatMap]
  simp only [Thread.windows, Thread.threadEntry, List.foldr_cons, List.foldr_nil, Option.none_or]

theorem agrees_iff (h : Space own dir used s) (h' : Space own root used' s) :
    Agrees s.ram dir root ↔
      ∀ v e, leaf s.ram dir v = some e → ∃ e', leaf s.ram root v = some e' ∧ Alike e' e := by
  simp only [Agrees, h.walk_eq, h'.walk_eq]
  constructor
  · intro hagree v e he
    obtain ⟨tr', htr', haddr, hperms⟩ := hagree v _ (Option.map_eq_some_iff.mpr ⟨e, he, rfl⟩)
    obtain ⟨e', he', rfl⟩ := Option.map_eq_some_iff.mp htr'
    exact ⟨e', he', haddr, hperms⟩
  · intro hleaf v tr htr
    obtain ⟨e, he, rfl⟩ := Option.map_eq_some_iff.mp htr
    obtain ⟨e', he', haddr, hperms⟩ := hleaf v e he
    exact ⟨_, Option.map_eq_some_iff.mpr ⟨e', he', rfl⟩, haddr, hperms⟩

theorem Compatible.alike (h : Compatible boot mmap kstackPhys) (he : kernelEntry boot mmap v = some e) :
    ∃ e', Thread.threadEntry boot mmap stackAddr kstackPhys v = some e' ∧ Alike e' e := by
  cases hkstack : (Thread.kstackWindow kstackPhys).entry v with
  | some p =>
    refine ⟨p, ?_, h.kstack v p e hkstack he⟩
    simp only [Thread.threadEntry, hkstack, Option.some_or]
  | none =>
    cases hdirect : (directWindow boot).entry v with
    | some d =>
      refine ⟨d,
        by simp only [Thread.threadEntry, hkstack, hdirect, Option.none_or, Option.some_or], ?_⟩
      cases hframebuffer : (framebufferWindow boot mmap).entry v with
      | some f =>
        simp only [kernelEntry, hframebuffer, Option.some_or, Option.some.injEq] at he
        subst he
        exact h.framebuffer v f d (Window.entry_none.mp hkstack) hframebuffer hdirect
      | none =>
        simp only [kernelEntry, hframebuffer, hdirect, Option.none_or, Option.some_or,
          Option.some.injEq] at he
        subst he
        exact .refl
    | none =>
      have hor : ((framebufferWindow boot mmap).entry v).or ((kernelWindow boot).entry v) = some e := by
        simpa only [kernelEntry, hdirect, Option.or_none] using he
      have hstack : (Thread.stackWindow stackAddr).entry v = none := by
        refine Window.entry_none.mpr fun hcov => ?_
        have hcovered : (framebufferWindow boot mmap).Covers v ∨ (kernelWindow boot).Covers v := by
          rcases Option.or_eq_some_iff.mp hor with hf | ⟨-, hk⟩
          · exact .inl (Window.entry_isSome.mp (Option.isSome_iff_exists.mpr ⟨e, hf⟩))
          · exact .inr (Window.entry_isSome.mp (Option.isSome_iff_exists.mpr ⟨e, hk⟩))
        rcases h.stack v hcov hcovered with hcov | hcov
        · exact Window.entry_none.mp hdirect hcov
        · exact Window.entry_none.mp hkstack hcov
      refine ⟨e, ?_, .refl⟩
      simpa only [Thread.threadEntry, hkstack, hdirect, hstack, Option.none_or] using hor

theorem entry_perms (haligned : 4096 ∣ w.phys.toNat) (h : w.entry v = some e) :
    e &&& permMask = w.flags &&& permMask := by
  obtain ⟨k, -, -, rfl⟩ := Window.entry_some h
  have hphys : 4096 ∣ (w.phys + BitVec.ofNat 64 (4096 * k)).toNat := by
    rw [BitVec.toNat_add, BitVec.toNat_ofNat]
    omega
  have hmask : permMask.toNat < 4096 := by decide
  rw [BitVec.and_or_distrib_right, and_of_aligned hphys hmask]
  exact BitVec.zero_or

theorem not_alike_stack (hstack : 4096 ∣ stackAddr) (hw : 4096 ∣ w.phys.toNat)
    (hflags : w.flags = kernelFlags)
    (h : (Thread.stackWindow stackAddr).entry v = some e) (h' : w.entry v = some e') : ¬Alike e e' := by
  rintro ⟨-, hperms⟩
  have haligned : 4096 ∣ (Thread.stackWindow stackAddr).phys.toNat := by
    show 4096 ∣ (BitVec.ofNat 64 stackAddr).toNat
    rw [BitVec.toNat_ofNat]
    exact (Nat.dvd_mod_iff (by decide)).mpr hstack
  rw [entry_perms haligned h, entry_perms hw h', hflags] at hperms
  have hne : ¬Thread.userFlags &&& permMask = kernelFlags &&& permMask := by decide
  exact hne hperms

theorem compatible_of_alike (hstack : 4096 ∣ stackAddr) (hkernel : 4096 ∣ boot.physicalBase.toNat)
    (hframebuffer : 4096 ∣ (framebufferEntry mmap).1)
    (h : ∀ v e, kernelEntry boot mmap v = some e →
      ∃ e', Thread.threadEntry boot mmap stackAddr kstackPhys v = some e' ∧ Alike e' e) :
    Compatible boot mmap kstackPhys := by
  have hbase : 4096 ∣ (framebufferWindow boot mmap).phys.toNat := by
    show 4096 ∣ (BitVec.ofNat 64 (framebufferEntry mmap).1).toNat
    rw [BitVec.toNat_ofNat]
    exact (Nat.dvd_mod_iff (by decide)).mpr hframebuffer
  refine ⟨fun v f d hnot hf hd => ?_, fun v hcov hcovered => ?_, fun v p e hp he => ?_⟩
  · have hkstack := Window.entry_none.mpr hnot
    obtain ⟨e', he', halike⟩ := h v f (by simp only [kernelEntry, hf, Option.some_or])
    simp only [Thread.threadEntry, hkstack, hd, Option.none_or, Option.some_or, Option.some.injEq]
      at he'
    exact he' ▸ halike
  · by_contra hnot
    obtain ⟨hdirect, hkstack⟩ := not_or.mp hnot
    have hdirect := Window.entry_none.mpr hdirect
    have hkstack := Window.entry_none.mpr hkstack
    have hcov' : (Thread.stackWindow stackAddr).Covers v := hcov
    obtain ⟨e', he'⟩ := Option.isSome_iff_exists.mp (Window.entry_isSome.mpr hcov')
    -- the window below it that covers the page
    obtain ⟨w, e, hw, hflags, he, hentry⟩ : ∃ (w : Window) (e : BitVec 64),
      4096 ∣ w.phys.toNat ∧ w.flags = kernelFlags ∧ w.entry v = some e ∧
        kernelEntry boot mmap v = some e := by
      cases hf : (framebufferWindow boot mmap).entry v with
      | some f => exact ⟨_, f, hbase, rfl, hf, by simp only [kernelEntry, hf, Option.some_or]⟩
      | none =>
        have hcov := hcovered.resolve_left (Window.entry_none.mp hf)
        obtain ⟨k, hk⟩ := Option.isSome_iff_exists.mp (Window.entry_isSome.mpr hcov)
        exact ⟨_, k, hkernel, rfl, hk, by simp only [kernelEntry, hf, hdirect, hk, Option.none_or]⟩
    obtain ⟨e'', hthread, halike⟩ := h v e hentry
    simp only [Thread.threadEntry, hkstack, hdirect, he', Option.none_or, Option.some_or,
      Option.some.injEq] at hthread
    subst hthread
    exact not_alike_stack hstack hw hflags he' he halike
  · obtain ⟨e', he', halike⟩ := h v e he
    simp only [Thread.threadEntry, hp, Option.some_or, Option.some.injEq] at he'
    exact he' ▸ halike

/-- A thread built after `VirtualMemory::Initialize` agrees with `kernelDir`
where the windows are compatible, and, for whole pages, only there. In between,
memory that was taken before may change, and `kernelDir` stays. -/
theorem agrees_iff_compatible {entryPoint : BitVec 64} {isUser : Bool} {t : Thread} (hs : Sane own s)
    (hinit : initializeMemory boot s = some (dir, s₁)) (hs₂ : Sane own s₂) (hgrow : Grow own W s₁ s₂)
    (hW : ∀ x ∈ W, ¬s.Free x)
    (hc : Thread.construct boot kstackPhys s₂ entryPoint isUser = some (t, s₃)) :
    (Compatible boot s.mmap kstackPhys → Agrees s₃.ram dir t.rootTable) ∧
      (4096 ∣ boot.physicalBase.toNat → 4096 ∣ (framebufferEntry s.mmap).1 →
        Agrees s₃.ram dir t.rootTable → Compatible boot s.mmap kstackPhys) := by
  obtain ⟨-, hgrow₁, used, hfree, hspace₁, hleaf₁⟩ := initializeMemory_ok hs hinit
  obtain ⟨hspace₂, hleaf₂⟩ := hspace₁.grow hs₂ hgrow fun x hx hmem => hW x hx (hfree x hmem)
  obtain ⟨-, used', stackAddr, hcons⟩ := Thread.construct_ok hs₂ hc
  obtain ⟨hext, hleaf₃⟩ := hspace₂.took hcons.space.sane hcons.grow
  have hdir : ∀ v, leaf s₃.ram dir v = kernelEntry boot s.mmap v := fun v =>
    (hleaf₃ v).trans ((hleaf₂ v).trans (hleaf₁ v))
  have hroot : ∀ v, leaf s₃.ram t.rootTable v =
      Thread.threadEntry boot s.mmap stackAddr kstackPhys v := by
    intro v
    rw [hcons.threadEntry v, hgrow.mmap, hgrow₁.mmap]
  rw [agrees_iff hext.space hcons.space]
  constructor
  · intro hcompatible v e he
    rw [hroot v]
    exact hcompatible.alike ((hdir v).symm.trans he)
  · intro hkernel hframebuffer hagree
    refine compatible_of_alike hcons.stackAligned hkernel hframebuffer fun v e he => ?_
    obtain ⟨e', he', halike⟩ := hagree v e ((hdir v).trans he)
    exact ⟨e', (hroot v).symm.trans he', halike⟩

theorem directWindow_entry {a : Nat} (hhhdm : 4096 ∣ boot.hhdmOffset.toNat) (ha : 4096 ∣ a)
    (hlt : a < 2 ^ 32) :
    (directWindow boot).entry (boot.hhdmOffset + BitVec.ofNat 64 a) =
      some (BitVec.ofNat 64 a ||| kernelFlags) := by
  obtain ⟨q, rfl⟩ := ha
  have hcov : (directWindow boot).Covers (boot.hhdmOffset + BitVec.ofNat 64 (4096 * q)) :=
    ⟨q, by rw [directWindow_pages]; omega, rfl⟩
  obtain ⟨e, he⟩ := Option.isSome_iff_exists.mp (Window.entry_isSome.mpr hcov)
  obtain ⟨k, hk, hsame, rfl⟩ := Window.entry_some he
  have hvirt : SamePage (boot.hhdmOffset + BitVec.ofNat 64 (4096 * k))
      (boot.hhdmOffset + BitVec.ofNat 64 (4096 * q)) :=
    hsame
  rw [SamePage, BitVec.toNat_add, BitVec.toNat_add, BitVec.toNat_ofNat, BitVec.toNat_ofNat] at hvirt
  rw [directWindow_pages] at hk
  obtain rfl : k = q := by omega
  have hphys : (directWindow boot).phys + BitVec.ofNat 64 (4096 * k) = BitVec.ofNat 64 (4096 * k) :=
    BitVec.zero_add _
  rw [he, hphys]
  rfl

/-- The usual layout: the framebuffer is where the direct map has it, and the
stacks are apart from everything. -/
theorem compatible_of_apart
    (hkstack : ∀ w ∈ kernelWindows boot mmap, (Thread.kstackWindow kstackPhys).Apart w)
    (hstack : ∀ w ∈ kernelWindows boot mmap, (Thread.stackWindow 0).Apart w)
    (hplace : boot.framebuffer = boot.hhdmOffset + BitVec.ofNat 64 (framebufferEntry mmap).1)
    (hhhdm : 4096 ∣ boot.hhdmOffset.toNat) (hbase : 4096 ∣ (framebufferEntry mmap).1)
    (hlow : (framebufferEntry mmap).1 + 4096 * (framebufferWindow boot mmap).pages ≤ 2 ^ 32) :
    Compatible boot mmap kstackPhys := by
  have hcovered : ∀ {v e}, kernelEntry boot mmap v = some e →
      ∃ w ∈ kernelWindows boot mmap, w.Covers v := by
    intro v e he
    rw [kernelEntry, Option.or_eq_some_iff, Option.or_eq_some_iff] at he
    rcases he with (he | ⟨-, he⟩) | ⟨-, he⟩
    · exact ⟨framebufferWindow boot mmap,
        by simp [kernelWindows], Window.entry_isSome.mp (by rw [he]; rfl)⟩
    · exact ⟨directWindow boot, by simp [kernelWindows], Window.entry_isSome.mp (by rw [he]; rfl)⟩
    · exact ⟨kernelWindow boot, by simp [kernelWindows], Window.entry_isSome.mp (by rw [he]; rfl)⟩
  refine ⟨fun v f d _ hf hd => ?_, fun v hcov hcovered => ?_, fun v p e hp he => ?_⟩
  · obtain ⟨k, hk, hsame, rfl⟩ := Window.entry_some hf
    obtain ⟨j, hj, hsame', rfl⟩ := Window.entry_some hd
    rw [directWindow_pages] at hj
    have hvirt : SamePage (boot.framebuffer + BitVec.ofNat 64 (4096 * k)) v := hsame
    have hvirt' : SamePage (boot.hhdmOffset + BitVec.ofNat 64 (4096 * j)) v := hsame'
    rw [hplace, SamePage, BitVec.toNat_add, BitVec.toNat_add, BitVec.toNat_ofNat,
      BitVec.toNat_ofNat] at hvirt
    rw [SamePage, BitVec.toNat_add, BitVec.toNat_ofNat] at hvirt'
    have hpage : (framebufferEntry mmap).1 + 4096 * k = 4096 * j := by omega
    have hphys : BitVec.ofNat 64 (framebufferEntry mmap).1 + BitVec.ofNat 64 (4096 * k) =
        0 + BitVec.ofNat 64 (4096 * j) := by
      rw [← BitVec.ofNat_add, hpage]
      exact (BitVec.zero_add _).symm
    show Alike ((0 + BitVec.ofNat 64 (4096 * j)) ||| kernelFlags)
      ((BitVec.ofNat 64 (framebufferEntry mmap).1 + BitVec.ofNat 64 (4096 * k)) ||| kernelFlags)
    rw [hphys]
    exact .refl
  · rcases hcovered with h | h
    · exact absurd h ((hstack _ (by simp [kernelWindows])).not_covers hcov)
    · exact absurd h ((hstack _ (by simp [kernelWindows])).not_covers hcov)
  · obtain ⟨w, hw, hcov⟩ := hcovered he
    have hcov' := Window.entry_isSome.mp (Option.isSome_iff_exists.mpr ⟨p, hp⟩)
    exact absurd hcov ((hkstack w hw).not_covers hcov')

end

theorem highMachine_construct {boot : BootInfo} (hsize : boot.kernelSize = 0x1000) (kstackPhys : Nat) :
    ∃ dir s₁ t s₂, VirtualMemory.initializeMemory boot highMachine = some (dir, s₁) ∧
      Thread.construct boot kstackPhys s₁ 0xffffffff80000000 false = some (t, s₂) := by
  obtain ⟨dir, s₁, hinit, hstock, hle⟩ := highMachine_returns hsize
  obtain ⟨-, hgrow, used, -, hspace, -⟩ := initializeMemory_ok highMachine_sane hinit
  have hsum : ((Thread.windows boot s₁.mmap 0 0).map Window.pages).sum = 1048599 := by
    have hstack : (Thread.stackWindow 0).pages = 16 := by decide
    have hkstack : (Thread.kstackWindow 0).pages = 5 := by decide
    simp only [Thread.windows, List.map_cons, List.map_nil, List.sum_cons, List.sum_nil,
      kernelWindow_pages, directWindow_pages, framebufferWindow_pages, hsize, hgrow.mmap,
      highMachine_framebuffer, hstack, hkstack]
    decide
  have hpages : Thread.stackPages = 65536 := by decide
  obtain ⟨t, s₂, hc, -⟩ :=
    Thread.construct_isSome kstackPhys 0xffffffff80000000 false hspace.sane hstock
    (by rw [hsum, hpages]; omega)
  exact ⟨dir, s₁, t, s₂, hinit, hc⟩

theorem agrees_iff_compatible_highMachine : ∃ dir s₁ t s₂,
    VirtualMemory.initializeMemory highBoot highMachine = some (dir, s₁) ∧
      Thread.construct highBoot 0x100200000 s₁ 0xffffffff80000000 false = some (t, s₂) ∧
        Agrees s₂.ram dir t.rootTable := by
  obtain ⟨dir, s₁, t, s₂, hinit, hc⟩ :=
    highMachine_construct (rfl : highBoot.kernelSize = 0x1000) 0x100200000
  obtain ⟨-, -, used, -, hspace, -⟩ := initializeMemory_ok highMachine_sane hinit
  refine ⟨dir, s₁, t, s₂, hinit, hc, ?_⟩
  refine (agrees_iff_compatible highMachine_sane hinit hspace.sane (W := ∅) .refl (by simp) hc).1 ?_
  obtain ⟨-, hmmap, -⟩ := highMachine_init
  rw [hmmap]
  exact compatible_of_apart (by decide +kernel) (by decide +kernel) (by decide) (by decide)
    (by decide) (by decide)

def secondBoot : BootInfo := { highBoot with framebuffer := 0xffff8000fe000000 }

/-- `kernelDir` has the first framebuffer at the second one's address; a thread
has the second. -/
theorem secondBoot_not_agrees :
    ∃ dir s₁ t s₂, VirtualMemory.initializeMemory secondBoot highMachine = some (dir, s₁) ∧
    Thread.construct secondBoot 0x100200000 s₁ 0xffffffff80000000 false = some (t, s₂) ∧
      ¬Agrees s₂.ram dir t.rootTable := by
  obtain ⟨dir, s₁, t, s₂, hinit, hc⟩ :=
    highMachine_construct (rfl : secondBoot.kernelSize = 0x1000) 0x100200000
  obtain ⟨-, hgrow₁, used, -, hspace, hleaf⟩ := initializeMemory_ok highMachine_sane hinit
  obtain ⟨-, used', stackAddr, hcons⟩ := Thread.construct_ok hspace.sane hc
  obtain ⟨hext, hleaf'⟩ := hspace.took hcons.space.sane hcons.grow
  obtain ⟨-, hmmap, -⟩ := highMachine_init
  refine ⟨dir, s₁, t, s₂, hinit, hc, fun hagree => ?_⟩
  have hkernel : leaf s₂.ram dir 0xffff8000fe000000 = some (0xfd000000 ||| kernelFlags) := by
    rw [hleaf', hleaf, hmmap, kernelEntry]
    have hf : (framebufferWindow secondBoot highCarved).entry 0xffff8000fe000000 =
        some (0xfd000000 ||| kernelFlags) := by
      decide
    rw [hf, Option.some_or, Option.some_or]
  have hthread : leaf s₂.ram t.rootTable 0xffff8000fe000000 = some (0xfe000000 ||| kernelFlags) := by
    have hkstack : (Thread.kstackWindow 0x100200000).entry 0xffff8000fe000000 = none := by decide
    have hdirect : (directWindow secondBoot).entry
        (secondBoot.hhdmOffset + BitVec.ofNat 64 0xfe000000) =
        some (BitVec.ofNat 64 0xfe000000 ||| kernelFlags) :=
      directWindow_entry (by decide) (by decide) (by decide)
    rw [hcons.threadEntry, Thread.threadEntry, hkstack, Option.none_or]
    rw [show (0xffff8000fe000000 : BitVec 64) = secondBoot.hhdmOffset +
      BitVec.ofNat 64 0xfe000000 by decide, hdirect]
    rfl
  obtain ⟨e, he, halike⟩ := (agrees_iff hext.space hcons.space).mp hagree _ _ hkernel
  obtain rfl := Option.some.inj (hthread.symm.trans he)
  exact absurd halike.1 (by decide)

end LimineOS
