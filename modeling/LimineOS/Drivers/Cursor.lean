import LimineOS.Drivers.Itoa

/-!
# The cursor of the screen

`putc` counts columns and lines of 8x8 pixels. A line only ends where the text
says so, since the column is compared with the width in pixels, and the height is
not looked at. `char` is signed, so that the bytes from 128 on index the font
below its start. `onScreen_iff` says which texts stay on the screen.
-/

namespace LimineOS

open Logged ByteMemory

namespace Screen

structure Framebuffer where
  width : Nat
  height : Nat
  pitch : Nat
  width_lt : width < 2 ^ 64
  height_lt : height < 2 ^ 64
  pitch_lt : pitch < 2 ^ 64
  width_ge : 8 ≤ width
  height_ge : 8 ≤ height
  width_dvd : 8 ∣ width
  height_dvd : 8 ∣ height
  pitch_ge : 4 * width ≤ pitch

/-- What `putc` computes as an `int`, which glyphs it looks up, and which pixels it
sets. -/
inductive Use
  | int (v : Int)
  | glyph (index : Int)
  | pixel (x y : Int)

/-- The result of signed arithmetic, which must not overflow. -/
def int (v : Int) : Logged Use Int := use (.int v) v

def putPixel (x y : Int) : Logged Use Unit := use (.pixel x y) ()

def fbIndex (fb : Framebuffer) (x y : Int) : Nat := ((y * (fb.pitch / 4 : Nat) + x) % 2 ^ 64).toNat

structure Cursor where
  x : Int := 0
  y : Int := 0

def drawRow (screenY : Int) : Nat → Int → Logged Use Unit
  | 0, _ => pure ()
  | n + 1, screenX => do
    putPixel screenX screenY
    let screenX ← int (screenX + 1)
    drawRow screenY n screenX

def drawGlyph (startX : Int) : Nat → Int → Logged Use Unit
  | 0, _ => pure ()
  | n + 1, screenY => do
    drawRow screenY 8 startX
    let screenY ← int (screenY + 1)
    drawGlyph startX n screenY

/-- `while ((x % 4) != 0) x++`, which takes three steps at most. -/
def skipToStop : Nat → Int → Logged Use Int
  | 0, x => pure x
  | n + 1, x =>
    if x.tmod 4 ≠ 0 then do
      let x ← int (x + 1)
      skipToStop n x
    else pure x

/-- `if (x == chosen_fb->width)`, an `int` against a `uint64_t`. -/
def wrap (fb : Framebuffer) (cursor : Cursor) (x : Int) : Logged Use Cursor :=
  if (x % 2 ^ 64).toNat = fb.width then do
    let y ← int (cursor.y + 1)
    pure { x := 0, y }
  else pure { cursor with x }

def putc (fb : Framebuffer) (cursor : Cursor) (c : Byte) : Logged Use Cursor :=
  if c = ch '\n' then do
    let y ← int (cursor.y + 1)
    pure { x := 0, y }
  else if c = ch '\t' then do
    let x ← int (cursor.x + 1)
    let x ← skipToStop 3 x
    pure { cursor with x }
  else do
    use (.glyph c.toInt) ()
    let startX ← int (cursor.x * 8)
    let startY ← int (cursor.y * 8)
    drawGlyph startX 8 startY
    let x ← int (cursor.x + 1)
    wrap fb cursor x

def Allowed (fb : Framebuffer) : Use → Prop
  | .int v => -2 ^ 31 ≤ v ∧ v < 2 ^ 31
  | .glyph index => 0 ≤ index ∧ index < 128
  | .pixel x y => 0 ≤ x ∧ x < fb.width ∧ 0 ≤ y ∧ y < fb.height

/-- Writing the text from the initial cursor, which has no meaning after an overflow. -/
def OnScreen (fb : Framebuffer) (text : List Byte) : Prop :=
  Uses (Allowed fb) (text.foldlM (putc fb) {})

-- ---------------------------------------------------------------------------
-- The cells of a text
-- ---------------------------------------------------------------------------

structure Cell where
  column : Nat := 0
  line : Nat := 0

def nextStop (column : Nat) : Nat := (column / 4 + 1) * 4

/-- The cell after a character, on a screen without bounds. -/
def Cell.next (cell : Cell) (c : Byte) : Cell :=
  if c = ch '\n' then { column := 0, line := cell.line + 1 }
  else if c = ch '\t' then { cell with column := nextStop cell.column }
  else { cell with column := cell.column + 1 }

/-- The cell for a glyph is on the screen, and the counters stay below 2^31. -/
def Fits (fb : Framebuffer) (cell : Cell) (c : Byte) : Prop :=
  if c = ch '\n' then cell.line + 1 < 2 ^ 31
  else if c = ch '\t' then nextStop cell.column < 2 ^ 31
  else c.toNat < 128 ∧ 8 * cell.column + 8 ≤ fb.width ∧ 8 * cell.column + 8 < 2 ^ 31 ∧
    8 * cell.line + 8 ≤ fb.height ∧ 8 * cell.line + 8 < 2 ^ 31

def Cell.cursor (cell : Cell) : Cursor := { x := cell.column, y := cell.line }

section
variable {fb : Framebuffer} {cell : Cell} {c : Byte} {n x y d : Nat}

theorem fbIndex_lt {x y : Int} (h : Allowed fb (.pixel x y)) :
    fbIndex fb x y < fb.height * (fb.pitch / 4) := by
  obtain ⟨hx, hx', hy, hy'⟩ := h
  lift x to Nat using hx
  lift y to Nat using hy
  have hpitch := fb.pitch_ge
  have hcast : ((y : Int) * (fb.pitch / 4 : Nat) + x) % 2 ^ 64 =
      ((y * (fb.pitch / 4) + x) % 2 ^ 64 : Nat) := by
    push_cast
    rfl
  rw [fbIndex, hcast, Int.toNat_natCast]
  calc (y * (fb.pitch / 4) + x) % 2 ^ 64 ≤ y * (fb.pitch / 4) + x := Nat.mod_le _ _
    _ < y * (fb.pitch / 4) + fb.pitch / 4 := by omega
    _ = (y + 1) * (fb.pitch / 4) := (Nat.succ_mul _ _).symm
    _ ≤ fb.height * (fb.pitch / 4) := Nat.mul_le_mul_right _ (by omega)

theorem allowed_int_iff {v : Int} : Uses (Allowed fb) (int v) ↔ -2 ^ 31 ≤ v ∧ v < 2 ^ 31 := uses_use_iff

theorem drawRow_uses_iff :
    Uses (Allowed fb) (drawRow y n x) ↔ n = 0 ∨ x + n ≤ fb.width ∧ x + n < 2 ^ 31 ∧ y < fb.height := by
  induction n generalizing x with
  | zero => simp [drawRow, uses_pure_iff]
  | succ n ih =>
    have hstep : (int ((x : Int) + 1)).val = ((x + 1 : Nat) : Int) := rfl
    rw [drawRow, uses_bind_iff, uses_bind_iff, hstep, ih, allowed_int_iff, putPixel, uses_use_iff]
    simp only [Allowed]
    omega

theorem drawGlyph_uses_iff :
    Uses (Allowed fb) (drawGlyph x n y) ↔
      n = 0 ∨ x + 8 ≤ fb.width ∧ x + 8 < 2 ^ 31 ∧ y + n ≤ fb.height ∧ y + n < 2 ^ 31 := by
  induction n generalizing y with
  | zero => simp [drawGlyph, uses_pure_iff]
  | succ n ih =>
    have hstep : (int ((y : Int) + 1)).val = ((y + 1 : Nat) : Int) := rfl
    rw [drawGlyph, uses_bind_iff, uses_bind_iff, hstep, ih, allowed_int_iff, drawRow_uses_iff]
    omega

theorem skipToStop_succ (hne : x % 4 ≠ 0) :
    skipToStop (n + 1) x = (do
      let x ← int (x + 1)
      skipToStop n x) := by
  have htmod : (x : Int).tmod 4 = (x % 4 : Nat) := rfl
  rw [skipToStop, htmod, if_pos (by omega)]

theorem skipToStop_stop (hstop : 4 ∣ x) : skipToStop n x = pure (x : Int) := by
  have htmod : (x : Int).tmod 4 = (x % 4 : Nat) := rfl
  cases n with
  | zero => rfl
  | succ n => rw [skipToStop, htmod, if_neg (by omega)]

theorem skipToStop_val (hd : d ≤ n) (hlt : d < 4) (hstop : 4 ∣ x + d) :
    (skipToStop n x).val = (x + d : Nat) := by
  induction n generalizing x d with
  | zero =>
    obtain rfl := Nat.le_zero.mp hd
    rfl
  | succ n ih =>
    cases d with
    | zero =>
      rw [skipToStop_stop (by omega), val_pure, Nat.add_zero]
    | succ d =>
      rw [skipToStop_succ (by omega), val_bind]
      have hval : (int ((x : Int) + 1)).val = ((x + 1 : Nat) : Int) := rfl
      have hsum : x + (d + 1) = x + 1 + d := by omega
      rw [hval, hsum, ih (by omega) (by omega) (hsum ▸ hstop)]

theorem skipToStop_uses_iff (hd : d ≤ n) (hlt : d < 4) (hstop : 4 ∣ x + d) :
    Uses (Allowed fb) (skipToStop n x) ↔ d = 0 ∨ x + d < 2 ^ 31 := by
  induction n generalizing x d with
  | zero => simp [Nat.le_zero.mp hd, skipToStop, uses_pure_iff]
  | succ n ih =>
    cases d with
    | zero =>
      rw [Nat.add_zero] at hstop
      simp [skipToStop_stop hstop, uses_pure_iff]
    | succ d =>
      have hval : (int ((x : Int) + 1)).val = ((x + 1 : Nat) : Int) := rfl
      have hsum : x + (d + 1) = x + 1 + d := by omega
      rw [skipToStop_succ (by omega), uses_bind_iff, hval, allowed_int_iff,
        ih (by omega) (by omega) (hsum ▸ hstop)]
      omega

-- ---------------------------------------------------------------------------
-- One character
-- ---------------------------------------------------------------------------

theorem glyph_allowed_iff : Allowed fb (.glyph c.toInt) ↔ c.toNat < 128 := by
  have hlt := c.isLt
  rw [Allowed, BitVec.toInt_eq_toNat_cond]
  split_ifs <;> omega

theorem nextStop_eq (column : Nat) :
    ∃ d < 4, nextStop column = column + 1 + d ∧ 4 ∣ column + 1 + d := by
  refine ⟨nextStop column - (column + 1), ?_, ?_, ?_⟩ <;> unfold nextStop <;> omega

theorem putc_glyph (hn : c ≠ ch '\n') (ht : c ≠ ch '\t') :
    putc fb cell.cursor c = (do
      use (.glyph c.toInt) ()
      let startX ← int (cell.column * 8 : Nat)
      let startY ← int (cell.line * 8 : Nat)
      drawGlyph startX 8 startY
      let x ← int (cell.column + 1 : Nat)
      wrap fb cell.cursor x) := by
  rw [putc, if_neg hn, if_neg ht]
  rfl

theorem wrap_of_fits (hfits : 8 * cell.column + 8 ≤ fb.width) :
    wrap fb cell.cursor (cell.column + 1 : Nat) =
      pure (Cell.cursor { cell with column := cell.column + 1 }) := by
  have hwidth := fb.width_lt
  rw [wrap, if_neg (by omega)]
  rfl

theorem putc_uses_iff : Uses (Allowed fb) (putc fb cell.cursor c) ↔ Fits fb cell c := by
  by_cases hn : c = ch '\n'
  · rw [putc, if_pos hn, Fits, if_pos hn, uses_bind_iff, allowed_int_iff]
    simp only [uses_pure_iff, and_true, Cell.cursor]
    omega
  · by_cases ht : c = ch '\t'
    · obtain ⟨d, hd, hstop, hdvd⟩ := nextStop_eq cell.column
      have hval : (int (cell.cursor.x + 1)).val = ((cell.column + 1 : Nat) : Int) := rfl
      rw [putc, if_neg hn, if_pos ht, Fits, if_neg hn, if_pos ht, hstop, uses_bind_iff,
        uses_bind_iff, hval, allowed_int_iff, skipToStop_uses_iff (by omega) hd hdvd]
      simp only [uses_pure_iff, and_true, Cell.cursor]
      omega
    · rw [putc_glyph hn ht, Fits, if_neg hn, if_neg ht]
      simp only [uses_bind_iff, uses_use_iff, int, val_use, glyph_allowed_iff, drawGlyph_uses_iff]
      simp only [Allowed]
      constructor
      · rintro ⟨hc, -, -, hdraw, -⟩
        omega
      · rintro ⟨hc, hx, hx', hy, hy'⟩
        simp only [wrap_of_fits hx, uses_pure_iff, and_true]
        omega

theorem putc_val (hfits : Fits fb cell c) : (putc fb cell.cursor c).val = (cell.next c).cursor := by
  unfold Fits at hfits
  split_ifs at hfits with hn ht
  · rw [putc, if_pos hn, Cell.next, if_pos hn]
    rfl
  · obtain ⟨d, hd, hstop, hdvd⟩ := nextStop_eq cell.column
    have hval : (skipToStop 3 ((cell.column + 1 : Nat) : Int)).val =
        ((cell.column + 1 + d : Nat) : Int) :=
      skipToStop_val (by omega) hd hdvd
    rw [putc, if_neg hn, if_pos ht, Cell.next, if_neg hn, if_pos ht, hstop]
    exact congrArg (fun x => Cursor.mk x cell.line) hval
  · rw [putc_glyph hn ht, Cell.next, if_neg hn, if_neg ht]
    simp only [val_bind, int, val_use, wrap_of_fits hfits.2.1, val_pure]

-- ---------------------------------------------------------------------------
-- A text
-- ---------------------------------------------------------------------------

theorem foldlM_putc_uses_iff {text : List Byte} (cell : Cell) :
    Uses (Allowed fb) (text.foldlM (putc fb) cell.cursor) ↔
      ∀ past c rest, text = past ++ c :: rest → Fits fb (past.foldl Cell.next cell) c := by
  induction text generalizing cell with
  | nil => simp [uses_pure_iff]
  | cons c text ih =>
    rw [List.foldlM_cons, uses_bind_iff, putc_uses_iff]
    constructor
    · rintro ⟨hfits, huses⟩ past c' rest heq
      rw [putc_val hfits, ih] at huses
      cases past with
      | nil =>
        obtain ⟨rfl, -⟩ := List.cons.inj heq
        exact hfits
      | cons c'' past =>
        obtain ⟨rfl, htext⟩ := List.cons.inj heq
        exact huses past c' rest htext
    · intro hall
      have hfits : Fits fb cell c := hall [] c text rfl
      refine ⟨hfits, ?_⟩
      rw [putc_val hfits, ih]
      intro past c' rest heq
      exact hall (c :: past) c' rest (congrArg (c :: ·) heq)

theorem onScreen_iff {text : List Byte} :
    OnScreen fb text ↔ ∀ past c rest, text = past ++ c :: rest → Fits fb (past.foldl Cell.next {}) c :=
  foldlM_putc_uses_iff {}

/-- Bytes from 128 on are negative. -/
theorem not_onScreen_of_ge (hc : 128 ≤ c.toNat) : ¬OnScreen fb [c] := by
  intro h
  have hfits : Fits fb {} c := (foldlM_putc_uses_iff {}).mp h [] c [] rfl
  unfold Fits at hfits
  split_ifs at hfits with hn ht
  · exact absurd (hn ▸ hc) (by decide)
  · exact absurd (ht ▸ hc) (by decide)
  · omega

end

def vga : Framebuffer where
  width := 640
  height := 480
  pitch := 2560
  width_lt := by decide
  height_lt := by decide
  pitch_lt := by decide
  width_ge := by decide
  height_ge := by decide
  width_dvd := by decide
  height_dvd := by decide
  pitch_ge := by decide

theorem not_onScreen_vga : ¬OnScreen vga [0xE9] := not_onScreen_of_ge (by decide)

end Screen

end LimineOS
