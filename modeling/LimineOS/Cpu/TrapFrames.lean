import LimineOS.Cpu.Idt
import LimineOS.Lib.X86

/-!
# Trap frames

The entry and return code of `idt_asm.asm` and `syscall.asm` as programs, and the
frames that they build, read as `SavedRegs`. The stubs of the interrupts agree
with the structure. `syscall_handler` pushes one word less than the structure has
below `rip`, so that what it leaves for the handler is shifted; its own return
sequence undoes what it has pushed (`correct_iff`).
-/

namespace LimineOS

open X86

namespace TrapFrame

def savedRegs (w : Nat → Word) : SavedRegs where
  r15 := w 0
  r14 := w 1
  r13 := w 2
  r12 := w 3
  r11 := w 4
  r10 := w 5
  r9 := w 6
  r8 := w 7
  rbp := w 8
  rdi := w 9
  rsi := w 10
  rdx := w 11
  rcx := w 12
  rbx := w 13
  rax := w 14
  intNo := w 15
  errorCode := w 16
  rip := w 17
  cs := w 18
  rflags := w 19
  rsp := w 20
  ss := w 21

def readFrame (m : Memory) (p : Word) : SavedRegs :=
  savedRegs fun k => load m (p + BitVec.ofNat 64 (8 * k))

-- ---------------------------------------------------------------------------
-- `idt_asm.asm`
-- ---------------------------------------------------------------------------

def pushAll : List Instr :=
  [.push .rax, .push .rbx, .push .rcx, .push .rdx, .push .rsi, .push .rdi, .push .rbp, .push .r8,
    .push .r9, .push .r10, .push .r11, .push .r12, .push .r13, .push .r14, .push .r15]

def popAll : List Instr :=
  [.pop .r15, .pop .r14, .pop .r13, .pop .r12, .pop .r11, .pop .r10, .pop .r9, .pop .r8, .pop .rbp,
    .pop .rdi, .pop .rsi, .pop .rdx, .pop .rcx, .pop .rbx, .pop .rax]

def isErr (i : Nat) : Bool := i = 8 || (i ≥ 10 && i ≤ 14) || i = 17 || i = 21 || i = 29 || i = 30

/-- `isr_i`, and `isr_common` up to its call. -/
def isr (i : Nat) : List Instr :=
  (if isErr i then [.pushImm (BitVec.ofNat 64 i), .cld]
    else [.pushImm 0, .pushImm (BitVec.ofNat 64 i), .cld]) ++
    pushAll ++ [.mov .rdi .rsp]

def isrReturn : List Instr := [.mov .rsp .rax] ++ popAll ++ [.add .rsp 16, .sti, .iretq]

-- ---------------------------------------------------------------------------
-- `syscall.asm`
-- ---------------------------------------------------------------------------

/-- `syscall_handler` up to its call. -/
def syscallHandler : List Instr :=
  [.swapgs, .movToGs 0x40 .rsp, .movFromGs .rsp 0x30, .pushImm 0x1B, .pushGs 0x40, .swapgs,
    .push .r11, .pushImm 0x23, .push .rcx, .pushImm 0,
    .push .rax, .push .rbx, .push .rcx, .push .rdx, .push .rsi, .push .rdi, .push .rbp, .push .r8,
    .push .r9, .push .r10, .push .r11, .push .r12, .push .r13, .push .r14, .push .r15,
    .mov .rdi .rsp, .xorSelf .rbp]

def syscallReturn : List Instr :=
  [.pop .r15, .pop .r14, .pop .r13, .pop .r12, .pop .r11, .pop .r10, .pop .r9, .pop .r8, .pop .rbp,
    .pop .rdi, .pop .rsi, .pop .rdx, .pop .rcx, .pop .rbx, .pop .rax,
    .add .rsp 8, .pop .rcx, .add .rsp 8, .pop .r11, .pop .rsp, .sysretq]

-- ---------------------------------------------------------------------------
-- What a frame is for
-- ---------------------------------------------------------------------------

structure Context where
  regs : Reg → Word
  rip : Word
  cs : Word
  rflags : Word
  ss : Word

def Context.frame (u : Context) (intNo errorCode : Word) : SavedRegs where
  r15 := u.regs .r15
  r14 := u.regs .r14
  r13 := u.regs .r13
  r12 := u.regs .r12
  r11 := u.regs .r11
  r10 := u.regs .r10
  r9 := u.regs .r9
  r8 := u.regs .r8
  rbp := u.regs .rbp
  rdi := u.regs .rdi
  rsi := u.regs .rsi
  rdx := u.regs .rdx
  rcx := u.regs .rcx
  rbx := u.regs .rbx
  rax := u.regs .rax
  intNo
  errorCode
  rip := u.rip
  cs := u.cs
  rflags := u.rflags
  rsp := u.regs .rsp
  ss := u.ss

def Agrees (frame : SavedRegs) (u : Context) : Prop := frame = u.frame frame.intNo frame.errorCode

def interrupted (s : State) : Context :=
  { regs := s.regs, rip := s.rip, cs := s.cs.setWidth 64, rflags := s.rflags, ss := s.ss.setWidth 64 }

/-- `syscall` keeps the address and the flags in rcx and r11. The selectors are
those of `Thread`'s constructor. -/
def calling (s : State) : Context where
  regs := s.regs
  rip := s.regs .rcx
  cs := (Thread.startContext 0 true).cs
  rflags := s.regs .r11
  ss := (Thread.startContext 0 true).ss

def pushesErrorCode (vector : BitVec 8) : Prop := vector.toNat ∈ [8, 10, 11, 12, 13, 14, 17, 21, 29, 30]

instance : DecidablePred pushesErrorCode := fun _ => inferInstanceAs (Decidable (_ ∈ _))

inductive Entry
  | interrupt (vector : BitVec 8) (errorCode stack : Word)
  | syscall

/-- The state at the call of the handler, whose argument is in rdi. -/
def enter (flags : State → Word) (handler : Word) (s : State) : Entry → State
  | .interrupt vector errorCode stack =>
    run flags
      (deliver s stack 0x08 handler (if pushesErrorCode vector then some errorCode else none))
        (isr vector.toNat)
  | .syscall => run flags s syscallHandler

structure Returns (before after : State) : Prop where
  rsp : after.regs .rsp = before.regs .rsp
  frame : ∀ k < 22, load after.mem (before.regs .rsp + BitVec.ofNat 64 (8 * k)) =
    load before.mem (before.regs .rsp + BitVec.ofNat 64 (8 * k))

/-- The handler gets a frame that agrees with the context, and if it leaves it
unchanged (and an interrupt's returns it), the context goes on as it was. -/
def Correct (flags : State → Word) (handler : Word) (s : State) : Entry → Prop
  | .interrupt vector errorCode stack =>
    let entered := enter flags handler s (.interrupt vector errorCode stack)
    Agrees (readFrame entered.mem (entered.regs .rdi)) (interrupted s) ∧
      ∀ after, Returns entered after → after.regs .rax = entered.regs .rdi →
        (run flags after isrReturn).regs = s.regs ∧
        interrupted (run flags after isrReturn) = interrupted s
  | .syscall =>
    let entered := enter flags handler s .syscall
    Agrees (readFrame entered.mem (entered.regs .rdi)) (calling s) ∧
      ∀ after, Returns entered after →
        (∀ r, r ≠ .rcx → r ≠ .r11 → (run flags after syscallReturn).regs r = s.regs r) ∧
          (run flags after syscallReturn).rip = s.regs .rcx ∧
            (run flags after syscallReturn).rflags = sysretFlags (s.regs .r11)

/-- The end of the kernel's stack, `gs:0x30`. -/
def kernelStack (s : State) : Word := load s.mem (s.kernelGsBase + 0x30)

structure KernelStack (s : State) : Prop where
  above : Apart (s.kernelGsBase + 0x40) (kernelStack s)
  below : Apart (s.kernelGsBase + 0x40) (kernelStack s - 8)

section
variable {flags : State → Word} {handler : Word} {s entered after : State} {l : List Word}

theorem savedRegs_congr {w w' : Nat → Word} (h : ∀ k < 22, w k = w' k) :
    savedRegs w = savedRegs w' := by
  simp only [savedRegs, h, Nat.reduceLT]

theorem readFrame_eq (h : Stacked s l) (hl : 22 ≤ l.length) :
    readFrame s.mem (s.regs .rsp) = savedRegs fun k => l.getD k 0 := by
  refine savedRegs_congr fun k hk => h k _ ?_
  rw [List.getD_eq_getElem?_getD, List.getElem?_eq_getElem (by omega)]
  rfl

theorem Returns.stacked (h : Returns entered after) (hl : Stacked entered l)
    (hlen : l.length ≤ 22) : Stacked after l := by
  intro k v hk
  have hlt := (List.getElem?_eq_some_iff.mp hk).1
  rw [h.rsp, h.frame k (by omega)]
  exact hl k v hk

theorem agrees_of_eq {frame : SavedRegs} {u : Context} (intNo errorCode : Word)
    (h : frame = u.frame intNo errorCode) :
    Agrees frame u := by
  rw [Agrees, h]
  rfl

def gprs : List Reg :=
  [.rax, .rbx, .rcx, .rdx, .rsi, .rdi, .rbp, .r8, .r9, .r10, .r11, .r12, .r13, .r14, .r15]

theorem rsp_not_mem : Reg.rsp ∉ gprs := by decide

theorem mem_gprs {r : Reg} (hr : r ≠ .rsp) : r ∈ gprs := by
  cases r with
  | rsp => exact absurd rfl hr
  | _ => decide

theorem pushAll_stacked (h : Stacked s l) (hl : l.length ≤ 8) :
    Stacked (run flags s pushAll) (gprs.reverse.map s.regs ++ l) :=
  h.pushes rsp_not_mem (by
    have : gprs.length = 15 := rfl
    omega)

theorem popAll_stacked {f : Reg → Word} (flags : State → Word)
    (h : Stacked s (gprs.reverse.map f ++ l)) :
    Stacked (run flags s popAll) l ∧ ∀ r, r ≠ .rsp → (run flags s popAll).regs r = f r := by
  obtain ⟨hstack, hregs⟩ := h.pops flags (by decide)
  refine ⟨hstack, fun r hr => (hregs r hr).trans (if_pos ?_)⟩
  exact List.mem_reverse.mpr (mem_gprs hr)

-- ---------------------------------------------------------------------------
-- Interrupts
-- ---------------------------------------------------------------------------

theorem isErr_iff (vector : BitVec 8) : isErr vector.toNat = true ↔ pushesErrorCode vector := by
  simp only [isErr, pushesErrorCode, List.mem_cons, List.not_mem_nil, or_false, Bool.or_eq_true,
    Bool.and_eq_true, decide_eq_true_eq]
  omega

theorem pushAll_saves {s' : State} (flags : State → Word) (h : Stacked s' l)
    (hregs : ∀ r, r ≠ .rsp → s'.regs r = s.regs r) (hl : l.length ≤ 8) :
    Stacked (run flags s' (pushAll ++ [.mov .rdi .rsp])) (gprs.reverse.map s.regs ++ l) ∧
      (run flags s' (pushAll ++ [.mov .rdi .rsp])).regs .rdi =
        (run flags s' (pushAll ++ [.mov .rdi .rsp])).regs .rsp := by
  have hsame : gprs.reverse.map s'.regs = gprs.reverse.map s.regs :=
    List.map_congr_left fun r hr => hregs r (ne_of_mem_of_not_mem (List.mem_reverse.mp hr) rsp_not_mem)
  have hsaved : Stacked (run flags s' pushAll) (gprs.reverse.map s.regs ++ l) :=
    hsame ▸ pushAll_stacked h hl
  rw [run_append]
  refine ⟨hsaved.set (by decide), ?_⟩
  exact State.set_self.trans (State.set_of_ne (by decide)).symm

theorem stub_stacked {d : State} {code : Word} {pushes : Bool} (flags : State → Word) (number : Word)
    (hd : Stacked d ((if pushes then some code else none).toList ++ l)) (hl : l.length = 5) :
    let stub : List Instr :=
  if pushes then [.pushImm number, .cld] else [.pushImm 0, .pushImm number, .cld]
    Stacked (run flags d stub) (number :: (if pushes then code else 0) :: l) ∧
      ∀ r, r ≠ .rsp → (run flags d stub).regs r = d.regs r := by
  cases pushes with
  | true =>
    have hnumber := hd.push (v := number) (by simp [hl])
    exact ⟨hnumber.congr rfl rfl, fun r hr => State.push_of_ne (v := number) hr⟩
  | false =>
    have hzero := hd.push (v := 0) (by simp [hl])
    have hnumber := hzero.push (v := number) (by simp [hl])
    exact ⟨hnumber.congr rfl rfl, fun r hr =>
      (State.push_of_ne (v := number) hr).trans (State.push_of_ne (v := 0) hr)⟩

theorem enter_interrupt (flags : State → Word) (handler : Word) (s : State) (vector : BitVec 8)
    (errorCode stack : Word) :
    let entered := enter flags handler s (.interrupt vector errorCode stack)
    Stacked entered (gprs.reverse.map s.regs ++ [BitVec.ofNat 64 vector.toNat,
        if isErr vector.toNat then errorCode else 0, s.rip, s.cs.setWidth 64, s.rflags, s.regs .rsp,
        s.ss.setWidth 64]) ∧
      entered.regs .rdi = entered.regs .rsp := by
  have hec : (if pushesErrorCode vector then some errorCode else none) =
      if isErr vector.toNat then some errorCode else none := if_congr (isErr_iff vector).symm rfl rfl
  obtain ⟨hd, hregs⟩ :=
    deliver_stacked s stack 0x08 handler (if isErr vector.toNat then some errorCode else none)
  obtain ⟨hstub, hkeep⟩ := stub_stacked flags (BitVec.ofNat 64 vector.toNat) hd rfl
  simp only [enter, hec, isr, List.append_assoc]
  rw [run_append]
  exact pushAll_saves flags hstub (fun r hr => (hkeep r hr).trans (hregs r hr)) (by simp)

theorem interrupt_agrees {intNo errorCode : Word}
    (h : Stacked entered (gprs.reverse.map s.regs ++ [intNo, errorCode,
      s.rip, s.cs.setWidth 64, s.rflags, s.regs .rsp, s.ss.setWidth 64])) (hrdi :
      entered.regs .rdi = entered.regs .rsp) :
    Agrees (readFrame entered.mem (entered.regs .rdi)) (interrupted s) := by
  rw [hrdi, readFrame_eq h (by simp [gprs])]
  exact agrees_of_eq intNo errorCode rfl

theorem isrReturn_restores {intNo errorCode : Word} (hrax : after.regs .rax = after.regs .rsp)
    (h : Stacked after (gprs.reverse.map s.regs ++
      [intNo, errorCode, s.rip, s.cs.setWidth 64, s.rflags, s.regs .rsp, s.ss.setWidth 64])) :
    (run flags after isrReturn).regs = s.regs ∧
      interrupted (run flags after isrReturn) = interrupted s := by
  have hmoved : Stacked (run flags after [.mov .rsp .rax])
      (gprs.reverse.map s.regs ++ [intNo, errorCode, s.rip,
      s.cs.setWidth 64, s.rflags, s.regs .rsp, s.ss.setWidth 64]) :=
    h.congr rfl (State.set_self.trans hrax)
  obtain ⟨hpopped, hregs⟩ := popAll_stacked flags hmoved
  rw [isrReturn, run_append, run_append]
  generalize run flags (run flags after [.mov .rsp .rax]) popAll = p at hpopped hregs
  obtain ⟨hadded, hkeep⟩ := Stacked.add (n := 16) flags [intNo, errorCode] hpopped rfl
  have hskipped : Stacked (run flags p [.add .rsp 16, .sti])
      [s.rip, s.cs.setWidth 64, s.rflags, s.regs .rsp,
      s.ss.setWidth 64] := hadded.congr rfl rfl
  have hall : ((run flags p [.add .rsp 16, .sti]).set .rsp (s.regs .rsp)).regs = s.regs := by
    funext r
    by_cases hr : r = .rsp
    · rw [hr, State.set_self]
    · exact (State.set_of_ne hr).trans ((hkeep r hr).trans (hregs r hr))
  have hleft : run flags p [.add .rsp 16, .sti, .iretq] =
      step flags (run flags p [.add .rsp 16, .sti]) .iretq := rfl
  rw [hleft, hskipped.iretq flags]
  simp only [interrupted, hall, and_self]

-- ---------------------------------------------------------------------------
-- System calls
-- ---------------------------------------------------------------------------

/-- The pushes of `syscall_handler` before the registers. -/
def syscallHead : List Instr :=
  [.swapgs, .movToGs 0x40 .rsp, .movFromGs .rsp 0x30, .pushImm 0x1B, .pushGs 0x40, .swapgs,
    .push .r11, .pushImm 0x23, .push .rcx, .pushImm 0]

theorem syscallHandler_eq :
    syscallHandler = syscallHead ++
      ((pushAll ++ ([.mov .rdi .rsp] : List Instr)) ++ ([.xorSelf .rbp] : List Instr)) := rfl

def switched (s : State) : State :=
  ({ s with gsBase := s.kernelGsBase, kernelGsBase := s.gsBase }.store (s.kernelGsBase + 0x40)
    (s.regs .rsp)).set .rsp
    (kernelStack s)

theorem switched_stacked (hk : KernelStack s) : Stacked (switched s) [load s.mem (kernelStack s)] := by
  intro k v hv
  obtain ⟨rfl, rfl⟩ : k = 0 ∧ load s.mem (kernelStack s) = v := by
    cases k with
    | zero => exact ⟨rfl, Option.some.inj hv⟩
    | succ k => simp at hv
  rw [switched, State.set_self, State.set_mem, State.store_mem, Nat.mul_zero, BitVec.add_zero]
  exact load_store_of_apart hk.above

theorem run_switch (flags : State → Word) (s : State) :
    run flags s [.swapgs, .movToGs 0x40 .rsp, .movFromGs .rsp 0x30] = switched s := by
  have hapart : Apart (s.kernelGsBase + 0x40) (s.kernelGsBase + 0x30) := by
    constructor <;> bv_omega
  have hstack : load (store s.mem (s.kernelGsBase + 0x40) (s.regs .rsp)) (s.kernelGsBase + 0x30) =
      kernelStack s :=
    load_store_of_apart hapart
  rw [switched, ← hstack]
  rfl

theorem load_scratch (hk : KernelStack s) :
    load ((switched s).push 0x1B).mem (s.kernelGsBase + 0x40) = s.regs .rsp := by
  have hrsp : (switched s).regs .rsp = kernelStack s := State.set_self
  rw [State.push_mem, hrsp, load_store_of_apart ⟨hk.below.2, hk.below.1⟩]
  exact load_store_self

theorem syscallHead_stacked (flags : State → Word) (hk : KernelStack s) :
    Stacked (run flags s syscallHead)
      [0, s.regs .rcx, 0x23, s.regs .r11, s.regs .rsp, 0x1B, load s.mem (kernelStack s)] ∧
      ∀ r, r ≠ .rsp → (run flags s syscallHead).regs r = s.regs r := by
  have hcode : syscallHead = ([.swapgs, .movToGs 0x40 .rsp, .movFromGs .rsp 0x30] : List Instr) ++
      (([.pushImm 0x1B, .pushGs 0x40] : List Instr) ++ (([.swapgs] : List Instr) ++
        ([.push .r11, .pushImm 0x23, .push .rcx, .pushImm 0] : List Instr))) := rfl
  have huser : run flags (switched s) [.pushImm 0x1B, .pushGs 0x40] =
      ((switched s).push 0x1B).push (s.regs .rsp) :=
    congrArg ((switched s).push 0x1B).push (load_scratch hk)
  rw [hcode, run_append, run_append, run_append, run_switch, huser]
  have hstacked := ((switched_stacked hk).push (v := 0x1B) (by simp)).push (v := s.regs .rsp) (by simp)
  have hkeep : ∀ r, r ≠ .rsp → (((switched s).push 0x1B).push (s.regs .rsp)).regs r = s.regs r :=
    fun r hr =>
    ((State.push_of_ne hr).trans (State.push_of_ne hr)).trans (State.set_of_ne hr)
  generalize ((switched s).push 0x1B).push (s.regs .rsp) = u at hstacked hkeep
  have hswapped : Stacked (run flags u [.swapgs]) [s.regs .rsp, 0x1B, load s.mem (kernelStack s)] :=
    hstacked.congr rfl rfl
  have hr11 := hswapped.push (v := u.regs .r11) (by simp)
  have hrest := ((hr11.push (v := 0x23) (by simp)).push (v := u.regs .rcx) (by simp)).push (v := 0)
    (by simp)
  have hlast : run flags (run flags u [.swapgs]) [.push .r11, .pushImm 0x23, .push .rcx, .pushImm 0] =
      ((((run flags u [.swapgs]).push (u.regs .r11)).push 0x23).push (u.regs .rcx)).push 0 := rfl
  rw [hkeep .r11 (by decide), hkeep .rcx (by decide)] at hrest hlast
  rw [hlast]
  refine ⟨hrest, fun r hr => ?_⟩
  rw [State.push_of_ne hr, State.push_of_ne hr, State.push_of_ne hr, State.push_of_ne hr]
  exact hkeep r hr

theorem enter_syscall (flags : State → Word) (handler : Word) (hk : KernelStack s) :
    let entered := enter flags handler s .syscall
    Stacked entered (gprs.reverse.map s.regs ++ [0, s.regs .rcx, 0x23, s.regs .r11, s.regs .rsp, 0x1B,
        load s.mem (kernelStack s)]) ∧
      entered.regs .rdi = entered.regs .rsp := by
  obtain ⟨hhead, hkeep⟩ := syscallHead_stacked flags hk
  obtain ⟨hstack, hrdi⟩ := pushAll_saves flags hhead hkeep (by simp)
  simp only [enter, syscallHandler_eq]
  rw [run_append, run_append]
  generalize run flags (run flags s syscallHead) (pushAll ++ ([.mov .rdi .rsp] : List Instr)) = e
    at hstack hrdi
  have hrbp : ∀ r, r ≠ .rbp → (run flags e [.xorSelf .rbp]).regs r = e.regs r :=
    fun r hr => State.set_of_ne hr
  refine ⟨hstack.congr rfl (hrbp .rsp (by decide)), ?_⟩
  rw [hrbp .rdi (by decide), hrbp .rsp (by decide), hrdi]

/-- The fields from `rip` on are one word off: `rip` is the code selector, and so
on up to `ss`, which is above the stack. -/
theorem syscall_agrees_iff {w : Word}
    (h : Stacked entered (gprs.reverse.map s.regs ++ [0, s.regs .rcx, 0x23, s.regs .r11,
      s.regs .rsp, 0x1B, w])) (hrdi : entered.regs .rdi = entered.regs .rsp) :
    Agrees (readFrame entered.mem (entered.regs .rdi)) (calling s) ↔
      s.regs .rcx = 0x23 ∧ s.regs .r11 = 0x1B ∧ s.regs .rsp = 0x1B ∧ w = 0x23 := by
  rw [hrdi, readFrame_eq h (by simp [gprs])]
  have hframe :
      (savedRegs fun k =>
        (gprs.reverse.map s.regs ++ [0, s.regs .rcx, 0x23, s.regs .r11, s.regs .rsp, 0x1B,
      w]).getD k 0) = { (calling s).frame 0 (s.regs .rcx) with
        rip := 0x23, cs := s.regs .r11, rflags := s.regs .rsp, rsp := 0x1B, ss := w } := rfl
  rw [hframe, Agrees]
  simp only [Context.frame, calling, Thread.startContext, SavedRegs.mk.injEq, true_and, if_true]
  constructor
  · rintro ⟨hrip, hcs, hrflags, hrsp, hss⟩
    exact ⟨hrip.symm, hcs, hrsp.symm, hss⟩
  · rintro ⟨hrcx, hr11, hrsp, hss⟩
    exact ⟨hrcx.symm, hr11, hrsp.trans hr11.symm, hrsp.symm, hss⟩

theorem syscallReturn_restores {w : Word}
    (h : Stacked after (gprs.reverse.map s.regs ++ [0, s.regs .rcx, 0x23, s.regs .r11,
      s.regs .rsp, 0x1B, w])) :
    (∀ r, r ≠ .rcx → r ≠ .r11 → (run flags after syscallReturn).regs r = s.regs r) ∧
      (run flags after syscallReturn).rip = s.regs .rcx ∧
        (run flags after syscallReturn).rflags = sysretFlags (s.regs .r11) := by
  have hcode : syscallReturn = popAll ++ (([.add .rsp 8] : List Instr) ++ (([.pop .rcx] : List Instr) ++
      (([.add .rsp 8] : List Instr) ++
        (([.pop .r11] : List Instr) ++ ([.pop .rsp, .sysretq] : List Instr))))) := rfl
  rw [hcode, run_append, run_append, run_append, run_append, run_append]
  obtain ⟨hpopped, hregs⟩ := popAll_stacked flags h
  generalize run flags after popAll = p at hpopped hregs
  obtain ⟨hstack, hp⟩ := Stacked.add (n := 8) flags [0] hpopped rfl
  generalize run flags p [.add .rsp 8] = q at hstack hp
  obtain ⟨hstack, hrcx, hq⟩ := hstack.pop (r := .rcx) flags (by decide)
  generalize run flags q [.pop .rcx] = q at hstack hrcx hq
  obtain ⟨hstack, hselector⟩ := Stacked.add (n := 8) flags [0x23] hstack rfl
  rw [← hselector .rcx (by decide)] at hrcx
  generalize run flags q [.add .rsp 8] = u at hstack hselector hrcx
  obtain ⟨hstack, hr11, hu⟩ := hstack.pop (r := .r11) flags (by decide)
  rw [← hu .rcx (by decide) (by decide)] at hrcx
  generalize run flags u [.pop .r11] = e at hstack hr11 hu hrcx
  have hleft : run flags e [.pop .rsp, .sysretq] = step flags (e.drop.set .rsp e.top) .sysretq := rfl
  have hlast : ∀ r, r ≠ .rsp → (e.drop.set .rsp e.top).regs r = e.regs r := fun r hr =>
    (State.set_of_ne hr).trans (State.set_of_ne hr)
  rw [hleft, sysretq_regs, sysretq_rip, sysretq_rflags, hlast .rcx (by decide),
    hlast .r11 (by decide), hrcx, hr11]
  refine ⟨fun r hne hne' => ?_, rfl, rfl⟩
  by_cases hr : r = .rsp
  · rw [hr, State.set_self, hstack.top]
  · rw [hlast r hr, hu r hr hne', hselector r hr, hq r hr hne, hp r hr, hregs r hr]

theorem interrupt_correct (vector : BitVec 8) (errorCode stack : Word) :
    Correct flags handler s (.interrupt vector errorCode stack) := by
  obtain ⟨hstack, hrdi⟩ := enter_interrupt flags handler s vector errorCode stack
  rw [Correct]
  generalize enter flags handler s (.interrupt vector errorCode stack) = entered at hstack hrdi ⊢
  refine ⟨interrupt_agrees hstack hrdi, fun after hreturns hrax => ?_⟩
  have hrsp : after.regs .rax = after.regs .rsp := by rw [hrax, hrdi, hreturns.rsp]
  have hafter := hreturns.stacked hstack (by simp [gprs])
  exact isrReturn_restores hrsp hafter

theorem syscall_correct_iff (hk : KernelStack s) : Correct flags handler s .syscall ↔
    s.regs .rcx = 0x23 ∧ s.regs .r11 = 0x1B ∧ s.regs .rsp = 0x1B ∧
      load s.mem (kernelStack s) = 0x23 := by
  obtain ⟨hstack, hrdi⟩ := enter_syscall flags handler hk
  rw [Correct]
  generalize enter flags handler s .syscall = entered at hstack hrdi ⊢
  rw [syscall_agrees_iff hstack hrdi]
  refine and_iff_left_of_imp fun _ after hreturns => ?_
  exact syscallReturn_restores (hreturns.stacked hstack (by simp [gprs]))

/-- An interrupt's frame is right. A system call's is where the registers happen to
be what the shifted fields hold. -/
theorem correct_iff (hk : KernelStack s) (e : Entry) :
    Correct flags handler s e ↔
      (e = .syscall → s.regs .rcx = 0x23 ∧ s.regs .r11 = 0x1B ∧ s.regs .rsp = 0x1B ∧
        load s.mem (kernelStack s) = 0x23) := by
  cases e with
  | interrupt vector errorCode stack =>
    exact iff_of_true (interrupt_correct vector errorCode stack) fun h => nomatch h
  | syscall =>
    rw [syscall_correct_iff hk]
    exact ⟨fun h _ => h, fun h => h rfl⟩

end

def firstCall : State where
  regs := fun r => if r = .rcx then 0x400123 else if r = .r11 then 0x202 else if r = .rsp then
    0xffffa0000000fff0 else 0
  rip := 0xffffffff80001000
  rflags := 0x2
  cs := 0x20
  ss := 0x28
  gsBase := 0
  kernelGsBase := 0x1000
  star := 0x0010002000000000
  mem := fun a => if a = 0x1031 then 0x80 else 0

theorem kernelStack_firstCall : KernelStack firstCall := by
  have hstack : kernelStack firstCall = 0x8000 := by decide
  constructor
  · rw [hstack]
    decide
  · rw [hstack]
    decide

theorem correct_iff_firstCall :
    Correct State.rflags 0 firstCall (.interrupt 14 4 0x9000) ∧
      ¬Correct State.rflags 0 firstCall .syscall := by
  refine ⟨(correct_iff kernelStack_firstCall _).mpr (fun h => nomatch h), fun h => ?_⟩
  exact absurd ((correct_iff kernelStack_firstCall _).mp h rfl).1 (by decide)

/-- The handler finds the code selector in `rip`. -/
theorem firstCall_not_correct : ¬Correct State.rflags 0 firstCall .syscall := by
  intro h
  exact absurd ((syscall_correct_iff kernelStack_firstCall).mp h).1 (by decide)

end TrapFrame

end LimineOS
