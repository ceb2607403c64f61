import LimineOS.Sched.Task

/-!
# Dispatching interrupts

`interrupt_handler` halts on the vectors below 32, the CPU's exceptions, and
hands the frame to the handler of any other vector.
-/

namespace LimineOS

namespace IDT

abbrev Handler := SavedRegs → SavedRegs

inductive Handling
  | panic
  | unhandled
  | handled (regs : SavedRegs)

def interruptHandler (handlers : Nat → Option Handler) (regs : SavedRegs) : Handling :=
  if regs.intNo < 32 then .panic
  else match handlers regs.intNo.toNat with
    | none => .unhandled
    | some handler => .handled (handler regs)

/-- Whatever handlers there are, an interrupt with this vector is fatal. -/
def Fatal (vector : BitVec 8) : Prop :=
  ∀ handlers regs, regs.intNo = vector.setWidth 64 → interruptHandler handlers regs = .panic

theorem fatal_iff {vector : BitVec 8} : Fatal vector ↔ vector.toNat < 32 := by
  have hlt : vector.setWidth 64 < 32 ↔ vector.toNat < 32 := by
    rw [BitVec.lt_def, BitVec.toNat_setWidth, show (32 : BitVec 64).toNat = 32 from rfl]
    omega
  constructor
  · intro h
    by_contra hge
    have hpanic :=
      h (fun _ => some id) { Thread.startContext 0 false with intNo := vector.setWidth 64 } rfl
    rw [interruptHandler, if_neg (mt hlt.mp hge)] at hpanic
    exact Handling.noConfusion hpanic
  · intro h handlers regs hregs
    rw [interruptHandler, hregs, if_pos (hlt.mpr h)]

end IDT

end LimineOS
