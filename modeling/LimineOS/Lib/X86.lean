import LimineOS.Lib.Layout

/-!
# The stack instructions of x86-64

Registers, byte-addressed memory with 64-bit words, and the instructions that
entry code is written in: pushes, pops and moves, `swapgs`, `iretq` and `sysretq`,
and the delivery of an interrupt. `Stacked s l` says that the words from the
stack pointer on are those of `l`. A push puts a word on the list and a pop takes
it off, and so a run of either is a statement about lists.
-/

namespace X86

open ByteMemory (Byte readLE bytesLE Holds)

abbrev Word := BitVec 64

abbrev Memory := Word → Byte

section
variable {m : Memory} {a b v : Word}

def load (m : Memory) (a : Word) : Word :=
  BitVec.ofNat 64 (readLE (fun i => m (a + BitVec.ofNat 64 i)) 0 8)

def store (m : Memory) (a v : Word) : Memory := fun x =>
  if (x - a).toNat < 8 then BitVec.ofNat 8 (v.toNat / 256 ^ (x - a).toNat) else m x

def Apart (a b : Word) : Prop := 8 ≤ (a - b).toNat ∧ 8 ≤ (b - a).toNat

instance (a b : Word) : Decidable (Apart a b) := inferInstanceAs (Decidable (_ ∧ _))

theorem holds_bytesLE {m : ByteMemory.Mem} {a n v : Nat}
    (h : ∀ i < n, m (a + i) = BitVec.ofNat 8 (v / 256 ^ i)) :
    Holds m a (bytesLE n v) := by
  induction n generalizing a v with
  | zero => exact ByteMemory.holds_nil
  | succ n ih =>
    refine ByteMemory.holds_cons.mpr ⟨by simpa using h 0 (Nat.succ_pos n), ih fun i hi => ?_⟩
    rw [Nat.add_assoc, Nat.add_comm 1, h (i + 1) (Nat.succ_lt_succ hi), Nat.div_div_eq_div_mul,
      Nat.pow_succ']

theorem toNat_add_sub {i : Nat} (hi : i < 2 ^ 64) : (a + BitVec.ofNat 64 i - a).toNat = i := by
  rw [BitVec.add_comm, BitVec.add_sub_cancel, BitVec.toNat_ofNat, Nat.mod_eq_of_lt hi]

@[simp] theorem load_store_self : load (store m a v) a = v := by
  have hbytes : Holds (fun i => store m a v (a + BitVec.ofNat 64 i)) 0 (bytesLE 8 v.toNat) := by
    refine holds_bytesLE fun i hi => ?_
    rw [Nat.zero_add, store, toNat_add_sub (by omega), if_pos hi]
  have hpow : 256 ^ 8 = 2 ^ 64 := by norm_num
  rw [load, hbytes.readLE, hpow, Nat.mod_eq_of_lt v.isLt, BitVec.ofNat_toNat, BitVec.setWidth_eq]

theorem load_store_of_apart (h : Apart a b) : load (store m a v) b = load m b := by
  have hbytes : readLE (fun i => store m a v (b + BitVec.ofNat 64 i)) 0 8 =
      readLE (fun i => m (b + BitVec.ofNat 64 i)) 0 8 := by
    refine ByteMemory.readLE_congr fun i hi => ?_
    have hi8 : i < 8 := by have := hi.2; omega
    obtain ⟨hab, hba⟩ := h
    have hout : ¬(b + BitVec.ofNat 64 i - a).toNat < 8 := by bv_omega
    exact if_neg hout
  rw [load, load, hbytes]

end

-- ---------------------------------------------------------------------------
-- The machine
-- ---------------------------------------------------------------------------

inductive Reg
  | rax | rbx | rcx | rdx | rsi | rdi | rbp | rsp | r8 | r9 | r10 | r11 | r12 | r13 | r14 | r15
  deriving DecidableEq, Repr

structure State where
  regs : Reg → Word
  rip : Word
  rflags : Word
  cs : BitVec 16
  ss : BitVec 16
  gsBase : Word
  kernelGsBase : Word
  star : Word
  mem : Memory

namespace State

def set (s : State) (r : Reg) (v : Word) : State := { s with regs := Function.update s.regs r v }

def store (s : State) (a v : Word) : State := { s with mem := X86.store s.mem a v }

def push (s : State) (v : Word) : State := (s.set .rsp (s.regs .rsp - 8)).store (s.regs .rsp - 8) v

def top (s : State) : Word := load s.mem (s.regs .rsp)

def drop (s : State) : State := s.set .rsp (s.regs .rsp + 8)

variable {s : State} {r r' : Reg} {a v : Word}

@[simp] theorem set_self : (s.set r v).regs r = v := Function.update_self ..
@[simp] theorem set_mem : (s.set r v).mem = s.mem := rfl
@[simp] theorem store_mem : (s.store a v).mem = X86.store s.mem a v := rfl
@[simp] theorem push_mem : (s.push v).mem = X86.store s.mem (s.regs .rsp - 8) v := rfl
@[simp] theorem push_rsp : (s.push v).regs .rsp = s.regs .rsp - 8 := set_self (s := s) (r := .rsp)

theorem set_of_ne (h : r' ≠ r) : (s.set r v).regs r' = s.regs r' := Function.update_of_ne h ..

theorem push_of_ne (h : r ≠ .rsp) : (s.push v).regs r = s.regs r := Function.update_of_ne h ..

end State

/-- `swapgs` exchanges the two bases of `gs`; offsets into `gs` are written as
they stand in the code. -/
inductive Instr
  | push (r : Reg)
  | pushImm (v : Word)
  | pushGs (offset : Word)
  | pop (r : Reg)
  | mov (dest src : Reg)
  | movToGs (offset : Word) (src : Reg)
  | movFromGs (dest : Reg) (offset : Word)
  | xorSelf (r : Reg)
  | add (r : Reg) (n : Word)
  | swapgs
  | cld
  | sti
  | iretq
  | sysretq
  deriving DecidableEq, Repr

def sysretFlags (r11 : Word) : Word := (r11 &&& 0x3C7FD7) ||| 2

/-- `flags` are the flags after an arithmetic instruction. -/
def step (flags : State → Word) (s : State) : Instr → State
  | .push r => s.push (s.regs r)
  | .pushImm v => s.push v
  | .pushGs offset => s.push (load s.mem (s.gsBase + offset))
  | .pop r => s.drop.set r s.top
  | .mov dest src => s.set dest (s.regs src)
  | .movToGs offset src => s.store (s.gsBase + offset) (s.regs src)
  | .movFromGs dest offset => s.set dest (load s.mem (s.gsBase + offset))
  | .xorSelf r => { s.set r 0 with rflags := flags s }
  | .add r n => { s.set r (s.regs r + n) with rflags := flags s }
  | .swapgs => { s with gsBase := s.kernelGsBase, kernelGsBase := s.gsBase }
  | .cld => { s with rflags := s.rflags &&& ~~~0x400 }
  | .sti => { s with rflags := s.rflags ||| 0x200 }
  | .iretq =>
    { s.set .rsp (s.drop.drop.drop).top with
      rip := s.top
      cs := s.drop.top.setWidth 16
      rflags := s.drop.drop.top
      ss := s.drop.drop.drop.drop.top.setWidth 16 }
  | .sysretq =>
    { s with
      rip := s.regs .rcx
      rflags := sysretFlags (s.regs .r11)
      cs := (s.star.extractLsb' 48 16 + 16) ||| 3
      ss := (s.star.extractLsb' 48 16 + 8) ||| 3 }

@[simp] theorem sysretq_regs (flags : State → Word) (s : State) :
    (step flags s .sysretq).regs = s.regs := rfl
@[simp] theorem sysretq_rip (flags : State → Word) (s : State) :
    (step flags s .sysretq).rip = s.regs .rcx := rfl
@[simp] theorem sysretq_rflags (flags : State → Word) (s : State) :
    (step flags s .sysretq).rflags = sysretFlags (s.regs .r11) := rfl

def run (flags : State → Word) (s : State) (code : List Instr) : State := code.foldl (step flags) s

/-- The CPU calls the handler of an interrupt on the stack that ends at `stack`,
with an error code for some exceptions. -/
def deliver (s : State) (stack : Word) (handlerCs : BitVec 16) (handler : Word)
    (errorCode : Option Word) : State :=
  let pushed :=
    ((((s.set .rsp stack).push (s.ss.setWidth 64)).push (s.regs .rsp)).push s.rflags).push
      (s.cs.setWidth 64)
  let pushed := (errorCode.toList.foldl State.push (pushed.push s.rip))
  { pushed with rip := handler, cs := handlerCs, rflags := s.rflags &&& ~~~0x200 }

-- ---------------------------------------------------------------------------
-- The stack as a list
-- ---------------------------------------------------------------------------

section
variable {s : State} {l vs : List Word} {v : Word} {r : Reg} {rs : List Reg} {flags : State → Word}
  {f : Reg → Word}

def Stacked (s : State) (l : List Word) : Prop :=
  ∀ k v, l[k]? = some v → load s.mem (s.regs .rsp + BitVec.ofNat 64 (8 * k)) = v

theorem stacked_nil : Stacked s [] := fun k v h => absurd h (by simp)

theorem Stacked.congr {s' : State} (h : Stacked s l) (hmem : s'.mem = s.mem)
    (hrsp : s'.regs .rsp = s.regs .rsp) :
    Stacked s' l := by
  intro k v hk
  rw [hmem, hrsp]
  exact h k v hk

theorem Stacked.set (h : Stacked s l) (hr : r ≠ .rsp) : Stacked (s.set r v) l :=
  h.congr rfl (State.set_of_ne (Ne.symm hr))

theorem Stacked.push (h : Stacked s l) (hl : 8 * l.length + 8 ≤ 2 ^ 64) :
    Stacked (s.push v) (v :: l) := by
  intro k w hk
  rw [State.push_mem, State.push_rsp]
  cases k with
  | zero =>
    obtain rfl := Option.some.inj hk
    rw [Nat.mul_zero, BitVec.add_zero, load_store_self]
  | succ k =>
    have hlt : k + 1 < l.length + 1 := (List.getElem?_eq_some_iff.mp hk).1
    have haddr : s.regs .rsp - 8 + BitVec.ofNat 64 (8 * (k + 1)) = s.regs .rsp +
        BitVec.ofNat 64 (8 * k) := by bv_omega
    have hapart : Apart (s.regs .rsp - 8) (s.regs .rsp + BitVec.ofNat 64 (8 * k)) := by
      constructor <;> bv_omega
    rw [haddr, load_store_of_apart hapart]
    exact h k w hk

theorem Stacked.top (h : Stacked s (v :: l)) : s.top = v := by
  have h0 := h 0 v rfl
  rwa [Nat.mul_zero, BitVec.add_zero] at h0

theorem Stacked.drop (h : Stacked s (v :: l)) : Stacked s.drop l := by
  intro k w hk
  have haddr : s.regs .rsp + 8 + BitVec.ofNat 64 (8 * k) = s.regs .rsp +
      BitVec.ofNat 64 (8 * (k + 1)) := by bv_omega
  rw [State.drop, State.set_mem, State.set_self, haddr]
  exact h (k + 1) w hk

theorem Stacked.pushes (h : Stacked s l) (hrs : .rsp ∉ rs)
    (hl : 8 * l.length + 8 * rs.length ≤ 2 ^ 64) :
    Stacked (run flags s (rs.map .push)) (rs.reverse.map s.regs ++ l) := by
  induction rs generalizing s l with
  | nil => exact h
  | cons r rs ih =>
    rw [List.mem_cons, not_or] at hrs
    rw [List.length_cons] at hl
    have hregs : rs.reverse.map (s.push (s.regs r)).regs = rs.reverse.map s.regs :=
      List.map_congr_left fun r' hr' =>
        State.push_of_ne (by rintro rfl; exact hrs.2 (List.mem_reverse.mp hr'))
    have hrest := ih (h.push (v := s.regs r) (by omega)) hrs.2 (by rw [List.length_cons]; omega)
    rw [hregs] at hrest
    rw [List.reverse_cons, List.map_append, List.append_assoc]
    exact hrest

theorem Stacked.pop (flags : State → Word) (h : Stacked s (v :: l)) (hr : r ≠ .rsp) :
    Stacked (run flags s [.pop r]) l ∧ (run flags s [.pop r]).regs r = v ∧
      ∀ r', r' ≠ .rsp → r' ≠ r → (run flags s [.pop r]).regs r' = s.regs r' := by
  have hset : run flags s [.pop r] = s.drop.set r s.top := rfl
  rw [hset]
  refine ⟨h.drop.set hr, State.set_self.trans h.top, fun r' hr' hne => ?_⟩
  rw [State.set_of_ne hne, State.drop, State.set_of_ne hr']

/-- Pops load what `f` has for each register, and nothing else. -/
theorem Stacked.pops (h : Stacked s (rs.map f ++ l)) (flags : State → Word) (hrs : .rsp ∉ rs) :
    Stacked (run flags s (rs.map .pop)) l ∧
      ∀ r, r ≠ .rsp → (run flags s (rs.map .pop)).regs r = if r ∈ rs then f r else s.regs r := by
  induction rs generalizing s with
  | nil => exact ⟨h, fun r _ => rfl⟩
  | cons r rs ih =>
    rw [List.mem_cons, not_or] at hrs
    rw [List.map_cons, List.cons_append] at h
    obtain ⟨hpopped, hself, hother⟩ := h.pop flags (Ne.symm hrs.1)
    obtain ⟨hstack, hregs⟩ := ih hpopped hrs.2
    refine ⟨hstack, fun r' hr' => (hregs r' hr').trans ?_⟩
    by_cases hmem : r' ∈ rs
    · rw [if_pos hmem, if_pos (List.mem_cons_of_mem r hmem)]
    · rw [if_neg hmem]
      by_cases heq : r' = r
      · rw [heq, if_pos List.mem_cons_self, hself]
      · rw [if_neg (by simp [heq, hmem]), hother r' hr' heq]

/-- `add rsp` leaves words behind without loading them. -/
theorem Stacked.add {n : Word} (flags : State → Word) (vs : List Word) (h : Stacked s (vs ++ l))
    (hn : n = BitVec.ofNat 64 (8 * vs.length)) :
    Stacked (run flags s [.add .rsp n]) l ∧
      ∀ r, r ≠ .rsp → (run flags s [.add .rsp n]).regs r = s.regs r := by
  have hrsp : (run flags s [.add .rsp n]).regs .rsp = s.regs .rsp + n :=
    State.set_self (s := s) (r := .rsp)
  refine ⟨fun k v hk => ?_, fun r hr => State.set_of_ne (s := s) hr⟩
  have haddr : s.regs .rsp + n + BitVec.ofNat 64 (8 * k) = s.regs .rsp +
      BitVec.ofNat 64 (8 * (vs.length + k)) := by
    rw [hn, BitVec.add_assoc, ← BitVec.ofNat_add, Nat.mul_add]
  rw [hrsp, haddr]
  refine h (vs.length + k) v ?_
  rwa [List.getElem?_append_right (Nat.le_add_right ..), Nat.add_sub_cancel_left]

theorem deliver_stacked (s : State) (stack : Word) (handlerCs : BitVec 16) (handler : Word)
    (errorCode : Option Word) :
    Stacked (deliver s stack handlerCs handler errorCode)
        (errorCode.toList ++ [s.rip, s.cs.setWidth 64, s.rflags, s.regs .rsp, s.ss.setWidth 64]) ∧
      ∀ r, r ≠ .rsp → (deliver s stack handlerCs handler errorCode).regs r = s.regs r := by
  have hframe := ((((stacked_nil (s := s.set .rsp stack)).push (v := s.ss.setWidth 64) (by simp)).push
    (v := s.regs .rsp) (by simp)).push (v := s.rflags) (by simp)).push (v := s.cs.setWidth 64) (by simp)
  have hrip := hframe.push (v := s.rip) (by simp)
  cases errorCode with
  | none =>
    refine ⟨hrip.congr rfl rfl, fun r hr => ?_⟩
    simp only [deliver, Option.toList, List.foldl_nil, State.push_of_ne hr, State.set_of_ne hr]
  | some code =>
    refine ⟨(hrip.push (v := code) (by simp)).congr rfl rfl, fun r hr => ?_⟩
    simp only [deliver, Option.toList, List.foldl_cons, List.foldl_nil, State.push_of_ne hr,
      State.set_of_ne hr]

theorem Stacked.iretq {rip rflags rsp : Word} {cs ss : BitVec 16} (flags : State → Word)
    (h : Stacked s (rip :: cs.setWidth 64 :: rflags :: rsp :: ss.setWidth 64 :: l)) :
    step flags s .iretq = { s.set .rsp rsp with rip, cs, rflags, ss } := by
  have hcs : (cs.setWidth 64).setWidth 16 = cs := by simp
  have hss : (ss.setWidth 64).setWidth 16 = ss := by simp
  rw [step, h.top, h.drop.top, h.drop.drop.top, h.drop.drop.drop.top, h.drop.drop.drop.drop.top,
    hcs, hss]

theorem run_append (flags : State → Word) (s : State) (code code' : List Instr) :
    run flags s (code ++ code') = run flags (run flags s code) code' := List.foldl_append

end

end X86
