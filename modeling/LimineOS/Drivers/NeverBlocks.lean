import LimineOS.Drivers.Printf

/-!
# `printf` and its lock

While `vprintf` only meets specifiers that it knows, a call takes the lock once
and releases it. For any other specifier it calls `_printf` to say so, and that
call tries to take the lock which is held already.
-/

namespace LimineOS

open Logged ByteMemory Numerals Fueled

namespace Screen

/-- The characters that follow each `%`, and 0 for the end of the format. -/
def conversions : List Byte → List Byte
  | [] => []
  | c :: rest =>
    if c = 0 then []
    else if c = ch '%' then
      match rest with
      | [] => [0]
      | c :: rest => c :: conversions rest
    else conversions rest

def known : List Byte := ['x', 's', 'd', 'u', 'c'].map ch

def diagnostic (c : Byte) : List Byte := "Unknown format specifier ".toList.map ch ++ [c, ch '\n']

/-- How a call from `s` may end: it has taken the lock once, and has released it or
has shown the whole diagnostic. -/
def Finished (s : Console) : Outcome → Prop
  | .returned s' => s'.locked = false ∧ s'.events = s.events ++ [.exchange true, .store]
  | .halted s' =>
    s'.events = s.events ++ [.exchange true] ∧ ∃ shown c, s'.out = s.out ++ shown ++ diagnostic c

def NeverBlocks (around : Int → Byte) (fmt : List Byte) (args : Args) (s : Console) : Prop :=
  Ends (_printf around fmt args s) (Finished s)

structure Readable (fmt : List Byte) (args : Args) : Prop where
  chars : ∀ k, (conversions fmt)[k]? = some (ch 's') → ∃ n, (args k).chars n = 0
  behind : ∀ k, (conversions fmt)[k]? = some (ch 'd') → ∃ n, (args k).behind n = 0

structure Keeps (around : Int → Byte) (s s' : Console) : Prop where
  locked : s'.locked = s.locked
  events : s'.events = s.events
  utoa : UtoaReached around s.utoaBuf → UtoaReached around s'.utoaBuf

section
variable {printf printf' : List Byte → Args → Console → Fueled Outcome} {around : Int → Byte}
  {c : Byte} {arg : Arg}
  {s s' s'' : Console} {fmt rest : List Byte} {args : Args}

theorem Keeps.refl : Keeps around s s := ⟨rfl, rfl, id⟩

theorem Keeps.trans (h : Keeps around s s') (h' : Keeps around s' s'') : Keeps around s s'' :=
  ⟨h'.locked.trans h.locked, h'.events.trans h.events, h'.utoa ∘ h.utoa⟩

-- ---------------------------------------------------------------------------
-- One specifier
-- ---------------------------------------------------------------------------

theorem shown_safe {str : CStr} (hkeeps : Keeps around s s') :
    Safe (do
      let s ← s'.puts str
      pure (Outcome.returned s)) fun o => ∃ s'', o = .returned s'' ∧ Keeps around s s'' := by
  refine puts_safe.bind ?_
  rintro _ ⟨x, rfl⟩
  exact safe_pure ⟨_, rfl, hkeeps.locked, hkeeps.events, hkeeps.utoa⟩

theorem shown_ends {str : CStr} (hstr : ∃ n, str n = 0) :
    Ends (do
      let s ← s.puts str
      pure (Outcome.returned s)) fun o => ∃ s', o = .returned s' := by
  obtain ⟨n, hn⟩ := hstr
  obtain ⟨x, hx⟩ := exists_isStr hn
  exact (puts_ends hx).bind fun s' _ => ends_pure ⟨s', rfl⟩

theorem mem_known_iff : c ∈ known ↔ c = ch 'x' ∨ c = ch 's' ∨ c = ch 'd' ∨ c = ch 'u' ∨ c = ch 'c' := by
  simp only [known, List.map_cons, List.map_nil, List.mem_cons, List.not_mem_nil, or_false]

theorem conversion_congr (printf' : List Byte → Args → Console → Fueled Outcome) (hc : c ∈ known) :
    conversion printf around c arg s = conversion printf' around c arg s := by
  rcases mem_known_iff.mp hc with rfl | rfl | rfl | rfl | rfl <;> rfl

theorem conversion_safe (hc : c ∈ known) :
    Safe (conversion printf around c arg s) fun o => ∃ s', o = .returned s' ∧ Keeps around s s' := by
  rcases mem_known_iff.mp hc with rfl | rfl | rfl | rfl | rfl
  · exact shown_safe ⟨rfl, rfl, .call _ _⟩
  · exact shown_safe ⟨rfl, rfl, id⟩
  · exact shown_safe ⟨rfl, rfl, id⟩
  · exact shown_safe ⟨rfl, rfl, .call _ _⟩
  · exact safe_pure ⟨_, rfl, rfl, rfl, id⟩

theorem itoa_chars_ends {val : BitVec 64} {buf : Buffer} {behind : CStr} (hbehind : ∃ n, behind n = 0) :
    ∃ n, (itoa around val 10 buf).val.1.chars (itoa around val 10 buf).val.2 behind n = 0 := by
  by_cases hval : val = 0
  · rw [hval]
    exact ⟨1, rfl⟩
  · have hne : val.toInt ≠ 0 := fun h => hval (BitVec.eq_of_toInt_eq h)
    obtain ⟨n, hn⟩ := hbehind
    have hstart : (itoa around val 10 buf).val.1 = _ := itoa_start (b := 10) (by decide) hne
    rw [hstart]
    refine ⟨64 + n - (64 - (sign val).length - min (Nat.digits 10 val.toInt.natAbs).length 63), ?_⟩
    show (if _ < 64 then _ else _) = _
    rw [if_neg (by omega), ← hn]
    exact congrArg behind (by omega)

theorem conversion_ends (hc : c ∈ known) (hchars : c = ch 's' → ∃ n, arg.chars n = 0)
    (hbehind : c = ch 'd' → ∃ n, arg.behind n = 0) (hutoa : UtoaReached around s.utoaBuf) :
    Ends (conversion printf around c arg s) fun o => ∃ s', o = .returned s' ∧ Keeps around s s' := by
  have hends : Ends (conversion printf around c arg s) fun o => ∃ s', o = .returned s' := by
    rcases mem_known_iff.mp hc with rfl | rfl | rfl | rfl | rfl
    · exact (conversion_unsigned_ends (k := .x) hutoa).mono fun o ho => ⟨_, ho⟩
    · exact shown_ends (hchars rfl)
    · exact shown_ends (itoa_chars_ends (hbehind rfl))
    · exact (conversion_unsigned_ends (k := .u) hutoa).mono fun o ho => ⟨_, ho⟩
    · exact ends_pure ⟨_, rfl⟩
  exact (hends.and_safe (conversion_safe hc)).mono fun o ho => ho.2

theorem conversion_blocked (hc : c ∉ known) (hs : s.locked = true)
    (hprintf : ∀ fmt args s, s.locked = true → Safe (printf fmt args s) fun _ => False) :
    Safe (conversion printf around c arg s) fun _ => False := by
  simp only [mem_known_iff, not_or] at hc
  obtain ⟨hx, hs', hd, hu, hcc⟩ := hc
  rw [conversion, if_neg hx, if_neg hs', if_neg hd, if_neg hu, if_neg hcc]
  exact (hprintf _ _ s hs).bind fun _ hfalse => hfalse.elim

-- ---------------------------------------------------------------------------
-- A whole format
-- ---------------------------------------------------------------------------

theorem vprintf_nul : vprintf printf around (0 :: rest) args s = pure (.returned s) := by
  rw [vprintf.eq_def]
  exact if_pos rfl

theorem vprintf_end :
    vprintf printf around [ch '%'] args s = conversion printf around 0 (args 0) s := rfl

theorem vprintf_specifier :
    vprintf printf around (ch '%' :: c :: rest) args s = (do
      match ← conversion printf around c (args 0) s with
      | .returned s => vprintf printf around rest (fun k => args (k + 1)) s
      | .halted s => pure (.halted s)) := rfl

theorem vprintf_char (hc : c ≠ 0) (hpercent : c ≠ ch '%') :
    vprintf printf around (c :: rest) args s = vprintf printf around rest args (s.putc c) := by
  rw [vprintf.eq_def]
  exact (if_neg hc).trans (if_neg hpercent)

theorem Readable.char (h : Readable (c :: rest) args) (hc : c ≠ 0) (hpercent : c ≠ ch '%') :
    Readable rest args := by
  have hconversions : conversions (c :: rest) = conversions rest := by
    rw [conversions.eq_def]
    exact (if_neg hc).trans (if_neg hpercent)
  exact ⟨hconversions ▸ h.chars, hconversions ▸ h.behind⟩

theorem Readable.tail (h : Readable (ch '%' :: c :: rest) args) : Readable rest fun k => args (k + 1) :=
  ⟨fun k hk => h.chars (k + 1) hk, fun k hk => h.behind (k + 1) hk⟩

theorem vprintf_congr (printf' : List Byte → Args → Console → Fueled Outcome)
    (hknown : ∀ c ∈ conversions fmt, c ∈ known) :
    vprintf printf around fmt args s = vprintf printf' around fmt args s := by
  fun_induction conversions fmt generalizing args s with
  | case1 => rfl
  | case2 => rw [vprintf_nul, vprintf_nul]
  | case3 => exact absurd (hknown 0 (List.mem_singleton_self 0)) (by decide)
  | case4 c rest _ ih =>
    rw [List.forall_mem_cons] at hknown
    rw [vprintf_specifier, vprintf_specifier, conversion_congr printf' hknown.1]
    refine bind_congr fun o => ?_
    cases o with
    | returned s' => exact ih hknown.2
    | halted => rfl
  | case5 c rest hc hpercent ih => rw [vprintf_char hc hpercent, vprintf_char hc hpercent, ih hknown]

theorem vprintf_ends (hknown : ∀ c ∈ conversions fmt, c ∈ known) (hread : Readable fmt args)
    (hutoa : UtoaReached around s.utoaBuf) :
    Ends (vprintf printf around fmt args s) fun o => ∃ s', o = .returned s' ∧ Keeps around s s' := by
  fun_induction conversions fmt generalizing args s with
  | case1 => exact ends_pure ⟨s, rfl, .refl⟩
  | case2 =>
    rw [vprintf_nul]
    exact ends_pure ⟨s, rfl, .refl⟩
  | case3 => exact absurd (hknown 0 (List.mem_singleton_self 0)) (by decide)
  | case4 c rest _ ih =>
    rw [List.forall_mem_cons] at hknown
    rw [vprintf_specifier]
    have hchars : c = ch 's' → ∃ n, (args 0).chars n = 0 := fun hc => hread.chars 0 (congrArg some hc)
    have hbehind : c = ch 'd' → ∃ n, (args 0).behind n = 0 :=
      fun hc => hread.behind 0 (congrArg some hc)
    refine (conversion_ends hknown.1 hchars hbehind hutoa).bind ?_
    rintro _ ⟨s', rfl, hkeeps⟩
    refine (ih hknown.2 hread.tail (hkeeps.utoa hutoa)).mono ?_
    rintro _ ⟨s'', rfl, hkeeps'⟩
    exact ⟨s'', rfl, hkeeps.trans hkeeps'⟩
  | case5 c rest hc hpercent ih =>
    rw [vprintf_char hc hpercent]
    refine (ih (s := s.putc c) hknown (hread.char hc hpercent) hutoa).mono ?_
    rintro _ ⟨s', rfl, hkeeps⟩
    exact ⟨s', rfl, hkeeps.locked, hkeeps.events, hkeeps.utoa⟩

/-- The first unknown specifier blocks, with the lock held as at the beginning. -/
theorem vprintf_blocked (hunknown : ∃ c ∈ conversions fmt, c ∉ known) (hs : s.locked = true)
    (hprintf : ∀ fmt args s, s.locked = true → Safe (printf fmt args s) fun _ => False) :
    Safe (vprintf printf around fmt args s) fun _ => False := by
  fun_induction conversions fmt generalizing args s with
  | case1 => simp at hunknown
  | case2 => simp at hunknown
  | case3 =>
    rw [vprintf_end]
    exact conversion_blocked (by decide) hs hprintf
  | case4 c rest _ ih =>
    rw [vprintf_specifier]
    by_cases hc : c ∈ known
    · refine (conversion_safe hc).bind ?_
      rintro _ ⟨s', rfl, hkeeps⟩
      refine ih ?_ (hkeeps.locked.trans hs)
      simpa [hc] using hunknown
    · exact (conversion_blocked hc hs hprintf).bind fun _ hfalse => hfalse.elim
  | case5 c rest hc hpercent ih =>
    rw [vprintf_char hc hpercent]
    exact ih hunknown hs

-- ---------------------------------------------------------------------------
-- A call
-- ---------------------------------------------------------------------------

theorem lock_locked : Safe s.lock fun s' => s'.locked = true := by
  refine safe_iterate (I := fun _ => True) (fun s _ => ?_) trivial
  split_ifs
  · rfl
  · trivial

theorem printfBody_blocked (hs : s.locked = true) :
    Safe (printfBody printf around fmt args s) fun _ => False :=
  (lock_safe hs).bind fun _ hfalse => hfalse.elim

theorem printf_succ (fuel : Nat) :
    _printf around fmt args s (fuel + 1) =
      printfBody (fun fmt args s _ => printfAt around fuel fmt args s) around fmt args s fuel := rfl

theorem safe_printf {P : Outcome → Prop}
    (h : ∀ fuel,
      Safe (printfBody (fun fmt args s _ => printfAt around fuel fmt args s) around fmt args s) P) :
    Safe (_printf around fmt args s) P := by
  intro fuel o ho
  cases fuel with
  | zero => exact absurd ho.symm (Option.some_ne_none o)
  | succ fuel => exact h fuel fuel o ho

theorem printf_blocked (hs : s.locked = true) : Safe (_printf around fmt args s) fun _ => False :=
  safe_printf fun _ => printfBody_blocked hs

theorem printfAt_blocked (hs : s.locked = true) (fuel : Nat) :
    Safe (fun _ => printfAt around fuel fmt args s) fun _ => False :=
  fun _ o ho => printf_blocked hs fuel o ho

theorem printfBody_ends (printf : List Byte → Args → Console → Fueled Outcome)
    (hfree : s.locked = false) (hknown : ∀ c ∈ conversions fmt, c ∈ known) (hread : Readable fmt args)
    (hutoa : UtoaReached around s.utoaBuf) :
    Ends (printfBody printf around fmt args s) (Finished s) := by
  refine (lock_ends hfree).bind fun s₁ hs₁ => ?_
  have hutoa₁ : UtoaReached around s₁.utoaBuf := by
    rw [hs₁]
    exact hutoa
  refine (vprintf_ends hknown hread hutoa₁).bind ?_
  rintro _ ⟨s', rfl, hkeeps⟩
  refine ends_pure ⟨rfl, ?_⟩
  rw [Console.unlock, hkeeps.events, hs₁, List.append_assoc]
  rfl

theorem printfBody_congr (printf' : List Byte → Args → Console → Fueled Outcome)
    (hknown : ∀ c ∈ conversions fmt, c ∈ known) :
    printfBody printf around fmt args s = printfBody printf' around fmt args s := by
  rw [printfBody, printfBody]
  simp only [vprintf_congr printf' hknown]

theorem printf_unknown (hunknown : ∃ c ∈ conversions fmt, c ∉ known) :
    Safe (_printf around fmt args s) fun _ => False := by
  refine safe_printf fun fuel => lock_locked.bind fun s' hs' => ?_
  exact (vprintf_blocked hunknown hs' fun _ _ _ hs => printfAt_blocked hs fuel).bind fun _ hfalse =>
    hfalse.elim

theorem neverBlocks_iff (hfree : s.locked = false) (hutoa : UtoaReached around s.utoaBuf)
    (hread : Readable fmt args) :
    NeverBlocks around fmt args s ↔ ∀ c ∈ conversions fmt, c ∈ known := by
  constructor
  · intro hends c hc
    by_contra hunknown
    exact (printf_unknown ⟨c, hc, hunknown⟩).not_ends hends
  · intro hknown
    obtain ⟨n, o, ho, hbody⟩ := printfBody_ends (fun _ _ _ _ => none) hfree hknown hread hutoa
    refine ⟨n + 1, o, ho, fun fuel hfuel => ?_⟩
    obtain ⟨fuel, rfl⟩ := Nat.exists_eq_add_of_le' (Nat.le_of_add_left_le hfuel)
    rw [printf_succ, printfBody_congr (fun _ _ _ _ => none) hknown, hbody fuel (by omega)]

theorem neverBlocks_hex :
    NeverBlocks (fun _ => 0) (['0', 'x', '%', 'x', ' ', '%', 'd'].map ch)
      (fun _ => ⟨640, cstr [], cstr []⟩) {} :=
  (neverBlocks_iff rfl .zero ⟨fun _ _ => ⟨0, rfl⟩, fun _ _ => ⟨0, rfl⟩⟩).mpr (by decide)

theorem blocks_nopid :
    ¬NeverBlocks (fun _ => 0) (['0', 'x', '%', '0', '8', 'x', '\n'].map ch)
      (fun _ => ⟨0, cstr [], cstr []⟩) {} :=
  (printf_unknown ⟨ch '0', by decide, by decide⟩).not_ends

-- ---------------------------------------------------------------------------
-- Runs
-- ---------------------------------------------------------------------------

inductive Reached (around : Int → Byte) : Console → Prop
  | boot : Reached around {}
  | call {s s' : Console} (fmt : List Byte) (args : Args) (fuel : Nat) :
    Reached around s → _printf around fmt args s fuel = some (.returned s') → Reached around s'

theorem vprintf_safe (hknown : ∀ c ∈ conversions fmt, c ∈ known) :
    Safe (vprintf printf around fmt args s) fun o => ∃ s', o = .returned s' ∧ Keeps around s s' := by
  fun_induction conversions fmt generalizing args s with
  | case1 => exact safe_pure ⟨s, rfl, .refl⟩
  | case2 =>
    rw [vprintf_nul]
    exact safe_pure ⟨s, rfl, .refl⟩
  | case3 => exact absurd (hknown 0 (List.mem_singleton_self 0)) (by decide)
  | case4 c rest _ ih =>
    rw [List.forall_mem_cons] at hknown
    rw [vprintf_specifier]
    refine (conversion_safe hknown.1).bind ?_
    rintro _ ⟨s', rfl, hkeeps⟩
    refine (ih hknown.2).mono ?_
    rintro _ ⟨s'', rfl, hkeeps'⟩
    exact ⟨s'', rfl, hkeeps.trans hkeeps'⟩
  | case5 c rest hc hpercent ih =>
    rw [vprintf_char hc hpercent]
    refine (ih (s := s.putc c) hknown).mono ?_
    rintro _ ⟨s', rfl, hkeeps⟩
    exact ⟨s', rfl, hkeeps.locked, hkeeps.events, hkeeps.utoa⟩

theorem lock_utoa : Safe s.lock fun s' => s'.utoaBuf = s.utoaBuf := by
  refine safe_iterate (I := fun s' => s'.utoaBuf = s.utoaBuf) (fun s' hs' => ?_) rfl
  split_ifs
  · exact hs'
  · exact hs'

theorem printf_returned (hutoa : UtoaReached around s.utoaBuf) :
    Safe (_printf around fmt args s) fun o =>
      ∃ s', o = .returned s' ∧ s'.locked = false ∧ UtoaReached around s'.utoaBuf := by
  by_cases hknown : ∀ c ∈ conversions fmt, c ∈ known
  · refine safe_printf fun fuel => lock_utoa.bind fun s₁ hs₁ => (vprintf_safe hknown).bind ?_
    rintro _ ⟨s', rfl, hkeeps⟩
    exact safe_pure ⟨_, rfl, rfl, hkeeps.utoa (hs₁ ▸ hutoa)⟩
  · push Not at hknown
    exact (printf_unknown hknown).mono fun _ hfalse => hfalse.elim

theorem Reached.ready (h : Reached around s) : s.locked = false ∧ UtoaReached around s.utoaBuf := by
  induction h with
  | boot => exact ⟨rfl, .zero⟩
  | call fmt args fuel _ hcall ih =>
    obtain ⟨_, heq, hfree, hutoa⟩ := printf_returned ih.2 fuel _ hcall
    cases heq
    exact ⟨hfree, hutoa⟩

end

end Screen

end LimineOS
