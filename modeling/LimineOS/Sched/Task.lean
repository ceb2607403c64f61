import LimineOS.Mm.Vmm

/-!
# Threads

A thread as the scheduler sees it, and what the constructor of `Thread` puts
into it. Pointers to threads are `ThreadPtr`s into a heap of threads; the null
pointer is `none`.
-/

namespace LimineOS

structure SavedRegs where
  r15 : BitVec 64
  r14 : BitVec 64
  r13 : BitVec 64
  r12 : BitVec 64
  r11 : BitVec 64
  r10 : BitVec 64
  r9 : BitVec 64
  r8 : BitVec 64
  rbp : BitVec 64
  rdi : BitVec 64
  rsi : BitVec 64
  rdx : BitVec 64
  rcx : BitVec 64
  rbx : BitVec 64
  rax : BitVec 64
  intNo : BitVec 64
  errorCode : BitVec 64
  rip : BitVec 64
  cs : BitVec 64
  rflags : BitVec 64
  rsp : BitVec 64
  ss : BitVec 64
  deriving DecidableEq, Repr

abbrev ThreadPtr := Nat

structure Thread where
  ctxt : SavedRegs
  rootTable : Nat
  pid : Int := 0
  canRun : Bool := true
  next : Option ThreadPtr := none
  deriving DecidableEq, Repr

namespace Thread

def defaultThreadStackSize : Nat := 64 * 1024

def startContext (entryPoint : BitVec 64) (isUser : Bool) : SavedRegs where
  r15 := 0
  r14 := 0
  r13 := 0
  r12 := 0
  r11 := 0
  r10 := 0
  r9 := 0
  r8 := 0
  rbp := 0
  rdi := 0
  rsi := 0
  rdx := 0
  rcx := 0
  rbx := 0
  rax := 0
  intNo := 0
  errorCode := 0
  rip := entryPoint
  cs := if isUser then 0x1B else 0x08
  rflags := 0x202
  rsp := 0xffffa00000000000 + BitVec.ofNat 64 defaultThreadStackSize
  ss := if isUser then 0x23 else 0x10

def build (entryPoint : BitVec 64) (isUser : Bool) (rootTable : Nat) : Thread where
  ctxt := startContext entryPoint isUser
  rootTable := rootTable

end Thread

end LimineOS
