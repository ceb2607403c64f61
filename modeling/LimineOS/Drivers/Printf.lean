import LimineOS.Drivers.Itoa
import LimineOS.Lib.Fuel

/-!
# `printf`

`vprintf` interprets a format while `_printf` holds the screen's lock. For a
specifier that it does not know it calls `_printf` again, which waits for the
lock forever: `_printf` ends exactly on formats whose specifiers are all known
(`neverBlocks_iff`). `%u` reads an `int`, so that its numerals are right below
2^31 only (`unsigned_exact_iff`).
-/

namespace LimineOS

open Logged ByteMemory Numerals Fueled

namespace Screen

inductive LockEvent
  | exchange (success : Bool)
  | store
  deriving DecidableEq

/-- `out` has the characters that `putc` has been given, `events` what has been
done to the lock. -/
structure Console where
  itoaBuf : Buffer := fun _ => 0
  utoaBuf : Buffer := fun _ => 0
  locked : Bool := false
  events : List LockEvent := []
  out : List Byte := []

namespace Console

def compareExchange (s : Console) : Bool × Console :=
  (!s.locked, { s with locked := true, events := s.events ++ [.exchange !s.locked] })

def lock (s : Console) : Fueled Console :=
  iterate
    (fun s => if s.compareExchange.1 then .inr s.compareExchange.2 else .inl s.compareExchange.2) s

def unlock (s : Console) : Console := { s with locked := false, events := s.events ++ [.store] }

def putc (s : Console) (c : Byte) : Console := { s with out := s.out ++ [c] }

def puts (s : Console) (str : CStr) : Fueled Console :=
  iterate (fun (str, s) => if str 0 = 0 then .inr s else .inl (str.skip 1, s.putc (str 0))) (str, s)

end Console

/-- What a specifier finds: an argument, the bytes at the address that the argument
is, and the bytes behind the buffers. -/
structure Arg where
  word : BitVec 64
  chars : CStr
  behind : CStr

abbrev Args := Nat → Arg

inductive Outcome
  | returned (s : Console)
  | halted (s : Console)

def unknownFormat : List Byte := "Unknown format specifier %c\n".toList.map ch

section
variable (printf : List Byte → Args → Console → Fueled Outcome) (around : Int → Byte)

def conversion (c : Byte) (arg : Arg) (s : Console) : Fueled Outcome :=
  if c = ch 'x' then do
    let (text, buf) := (utoa around arg.word 16 s.utoaBuf).val
    let s ← { s with utoaBuf := buf }.puts (text.chars buf arg.behind)
    pure (.returned s)
  else if c = ch 's' then do
    let s ← s.puts arg.chars
    pure (.returned s)
  else if c = ch 'd' then do
    let (text, buf) := (itoa around arg.word 10 s.itoaBuf).val
    let s ← { s with itoaBuf := buf }.puts (text.chars buf arg.behind)
    pure (.returned s)
  else if c = ch 'u' then do
    -- an `int`, which becomes a `uint64_t`
    let c : BitVec 32 := arg.word.setWidth 32
    let (text, buf) := (utoa around (c.signExtend 64) 10 s.utoaBuf).val
    let s ← { s with utoaBuf := buf }.puts (text.chars buf arg.behind)
    pure (.returned s)
  else if c = ch 'c' then
    pure (.returned (s.putc (arg.word.setWidth 8)))
  else do
    match ← printf unknownFormat (fun _ => { arg with word := c.signExtend 64 }) s with
    | .returned s => pure (.halted s)
    | .halted s => pure (.halted s)

/-- A format is given up to its NUL. -/
def vprintf : List Byte → Args → Console → Fueled Outcome
  | [], _, s => pure (.returned s)
  | c :: rest, args, s =>
    if c = 0 then pure (.returned s)
    else if c = ch '%' then
      match rest with
      | [] => conversion printf around 0 (args 0) s
      | c :: rest => do
        match ← conversion printf around c (args 0) s with
        | .returned s => vprintf rest (fun k => args (k + 1)) s
        | .halted s => pure (.halted s)
    else vprintf rest args (s.putc c)

/-- `_printf`, over the calls in it. -/
def printfBody (fmt : List Byte) (args : Args) (s : Console) : Fueled Outcome := do
  let s ← s.lock
  match ← vprintf printf around fmt args s with
  | .returned s => pure (.returned s.unlock)
  | .halted s => pure (.halted s)

end

/-- A call, with `fuel` for its loops and for the calls in it. -/
def printfAt (around : Int → Byte) : Nat → List Byte → Args → Console → Option Outcome
  | 0, _, _, _ => none
  | fuel + 1, fmt, args, s =>
    printfBody (fun fmt args s _ => printfAt around fuel fmt args s) around fmt args s fuel

def _printf (around : Int → Byte) (fmt : List Byte) (args : Args) (s : Console) : Fueled Outcome :=
  fun fuel => printfAt around fuel fmt args s

-- ---------------------------------------------------------------------------
-- Loops
-- ---------------------------------------------------------------------------

def Console.emit (s : Console) (x : List Byte) : Console := { s with out := s.out ++ x }

@[simp] theorem Console.emit_out (s : Console) (x : List Byte) : (s.emit x).out = s.out ++ x := rfl

theorem Console.putc_eq_emit (s : Console) (c : Byte) : s.putc c = s.emit [c] := rfl

theorem Console.emit_emit (s : Console) (x y : List Byte) : (s.emit x).emit y = s.emit (x ++ y) := by
  simp [emit]

section
variable {s : Console} {str : CStr} {x : List Byte}

theorem puts_ends (h : IsStr str x) : Ends (s.puts str) fun s' => s' = s.emit x := by
  induction x generalizing str s with
  | nil =>
    refine ends_iterate_inr (if_pos h.end_eq_zero) ?_
    simp [Console.emit]
  | cons c x ih =>
    have hc : str 0 = c := h.chars 0 (Nat.zero_le _)
    have hne : str 0 ≠ 0 := h.ne_zero (Nat.succ_pos _)
    have hrest : IsStr (str.skip 1) x := h.skip (Nat.succ_pos _)
    refine ends_iterate_inl (if_neg hne) ((ih hrest).mono ?_)
    rintro s' rfl
    rw [hc, Console.putc_eq_emit, Console.emit_emit, List.singleton_append]

theorem puts_safe : Safe (s.puts str) fun s' => ∃ x, s' = s.emit x := by
  refine safe_iterate (I := fun p => ∃ x, p.2 = s.emit x) ?_ ⟨[], by simp [Console.emit]⟩
  rintro ⟨str, _⟩ ⟨x, rfl⟩
  dsimp only
  split_ifs
  · exact ⟨x, rfl⟩
  · exact ⟨x ++ [str 0], s.emit_emit x [str 0]⟩

theorem lock_ends (h : s.locked = false) :
    Ends s.lock fun s' => s' = { s with locked := true, events := s.events ++ [.exchange true] } := by
  refine ends_iterate_inr (a := s.compareExchange.2) (if_pos (by simp [Console.compareExchange, h])) ?_
  simp [Console.compareExchange, h]

theorem lock_safe (h : s.locked = true) : Safe s.lock fun _ => False := by
  refine safe_iterate (I := fun s => s.locked = true) ?_ h
  intro s hs
  rw [if_neg (by simp [Console.compareExchange, hs])]
  rfl

end

-- ---------------------------------------------------------------------------
-- `%x` and `%u`
-- ---------------------------------------------------------------------------

inductive Unsigned
  | x
  | u

namespace Unsigned

def char : Unsigned → Byte
  | x => ch 'x'
  | u => ch 'u'

def base : Unsigned → Nat
  | x => 16
  | u => 10

def argument (arg : Arg) : Unsigned → Nat
  | x => arg.word.toNat
  | u => (arg.word.setWidth 32).toNat

def passed (arg : Arg) : Unsigned → BitVec 64
  | x => arg.word
  | u => (arg.word.setWidth 32).signExtend 64

end Unsigned

/-- The bytes of `utoa`'s buffer in some state of the system. -/
inductive UtoaReached (around : Int → Byte) : Buffer → Prop
  | zero : UtoaReached around fun _ => 0
  | call {buf : Buffer} (val : BitVec 64) (base : Int) : UtoaReached around buf →
      UtoaReached around (utoa around val base buf).val.2

/-- The specifier emits the argument's numeral, which ends in `utoa`'s buffer. -/
def Unsigned.Exact (around : Int → Byte) (arg : Arg) (s : Console) (k : Unsigned) : Prop :=
  ∃ ds, IsNumeral k.base (k.argument arg) ds ∧
    (utoa around (k.passed arg) k.base s.utoaBuf).val.1.Holds
      (utoa around (k.passed arg) k.base s.utoaBuf).val.2
      (ds.map hexDigit) ∧
    ∀ printf, Ends (conversion printf around k.char arg s) fun o =>
      ∃ s', o = .returned s' ∧ s'.out = s.out ++ ds.map hexDigit

section
variable {printf : List Byte → Args → Console → Fueled Outcome} {around : Int → Byte} {arg : Arg}
  {s : Console} {k : Unsigned}

theorem UtoaReached.last {buf : Buffer} (h : UtoaReached around buf) : buf 63 = 0 := by
  induction h with
  | zero => rfl
  | call val base _ ih => rw [utoa_last, ih]

theorem Unsigned.passed_toNat_iff : (k.passed arg).toNat = k.argument arg ↔
      k = .x ∨ k.argument arg < 2 ^ 31 := by
  cases k with
  | x => exact iff_of_true rfl (.inl rfl)
  | u =>
    have hlt := (arg.word.setWidth 32).isLt
    rw [passed, argument, BitVec.toNat_signExtend, BitVec.toNat_setWidth_of_le (by decide),
      BitVec.msb_eq_decide]
    simp only [decide_eq_true_eq, reduceCtorEq, false_or]
    split_ifs with hmsb <;> omega

theorem Unsigned.base_bounds (k : Unsigned) : 1 < k.base ∧ k.base ≤ 16 ∧ 2 ^ 64 ≤ k.base ^ 62 := by
  cases k <;> decide

theorem conversion_unsigned :
    conversion printf around k.char arg s = (do
      let (text, buf) := (utoa around (k.passed arg) k.base s.utoaBuf).val
      let s ← { s with utoaBuf := buf }.puts (text.chars buf arg.behind)
      pure (.returned s)) := by
  cases k <;> rfl

theorem utoa_passed_holds (h : UtoaReached around s.utoaBuf) :
    (utoa around (k.passed arg) k.base s.utoaBuf).val.1.Holds
      (utoa around (k.passed arg) k.base s.utoaBuf).val.2
      ((numeral k.base (k.passed arg).toNat).map hexDigit) := by
  obtain ⟨hb, hle, hpow⟩ := k.base_bounds
  exact utoa_holds hb hle (Nat.lt_of_lt_of_le (k.passed arg).isLt hpow) h.last

theorem conversion_unsigned_ends (h : UtoaReached around s.utoaBuf) :
    Ends (conversion printf around k.char arg s) fun o =>
      o = .returned ({ s with utoaBuf := (utoa around (k.passed arg) k.base s.utoaBuf).val.2 }.emit
        ((numeral k.base (k.passed arg).toNat).map hexDigit)) := by
  obtain ⟨hb, hle, -⟩ := k.base_bounds
  rw [conversion_unsigned]
  refine (puts_ends ((utoa_passed_holds h).isStr (zero_notMem_digits hb hle))).bind ?_
  rintro s' rfl
  exact ends_pure rfl

theorem Unsigned.Exact.passed_eq (hexact : k.Exact around arg s) (h : UtoaReached around s.utoaBuf) :
    (k.passed arg).toNat = k.argument arg := by
  obtain ⟨hb, hle, -⟩ := k.base_bounds
  obtain ⟨ds, hds, -, hends⟩ := hexact
  obtain ⟨_, _, ⟨⟨s', rfl, hout⟩, heq⟩, -⟩ :=
    (hends fun _ _ _ _ => none).and (conversion_unsigned_ends h)
  have hdigits : ds.map hexDigit = (numeral k.base (k.passed arg).toNat).map hexDigit := by
    rw [Outcome.returned.inj heq, Console.emit_out] at hout
    exact (List.append_cancel_left hout).symm
  have hnumeral : ds = numeral k.base (k.passed arg).toNat := by
    rw [← digitValue_digits fun d hd => Nat.lt_of_lt_of_le (hds.digits d hd) hle, hdigits,
      digitValue_digits fun d hd => Nat.lt_of_lt_of_le (lt_of_mem_numeral hb hd) hle]
  rw [← hds.value, hnumeral, eval_numeral]

theorem unsigned_exact_iff (h : UtoaReached around s.utoaBuf) :
    k.Exact around arg s ↔ k = .x ∨ k.argument arg < 2 ^ 31 := by
  obtain ⟨hb, -, -⟩ := k.base_bounds
  rw [← Unsigned.passed_toNat_iff]
  refine ⟨fun hexact => hexact.passed_eq h, fun heq => ?_⟩
  refine ⟨numeral k.base (k.passed arg).toNat, ?_, utoa_passed_holds h, fun printf => ?_⟩
  · rw [heq]
    exact isNumeral_numeral hb
  · refine (conversion_unsigned_ends h).mono ?_
    rintro o rfl
    exact ⟨_, rfl, rfl⟩

theorem unsigned_exact_seven : Unsigned.u.Exact (fun _ => 0) ⟨7, cstr [], cstr []⟩ {} :=
  (unsigned_exact_iff .zero).mpr (.inr (by decide))

/-- 2^31 is shown as 2^64 - 2^31. -/
theorem unsigned_not_exact : ¬Unsigned.u.Exact (fun _ => 0) ⟨0x80000000, cstr [], cstr []⟩ {} :=
  fun h => absurd (h.passed_eq .zero) (by decide)

end

end Screen

end LimineOS
