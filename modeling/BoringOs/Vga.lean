import BoringOs.Lib.Runs
import Mathlib.Data.Nat.Bitwise

/-! The text console of the VGA, after `sys/dev/x86/vgacons.c`. An access outside the 2000 cells of
the screen has no result. -/

namespace BoringOs.Vga

open Function List Option

def SizeX : Nat := 80
def SizeY : Nat := 25
def TextAttribute : Nat := 0x70

def glyph (c : Nat) : Nat := c ||| TextAttribute <<< 8

def BLANK : Nat := glyph 0x20

structure Screen where
  videoBuffer : Nat → Nat
  currentX : Nat
  currentY : Nat

def store (buffer : Nat → Nat) (index value : Nat) : Option (Nat → Nat) :=
  if index < SizeX * SizeY then some (Function.update buffer index value) else none

/-- `VideoBuffer[index] = VideoBuffer[other]`. -/
def move (buffer : Nat → Nat) (index other : Nat) : Option (Nat → Nat) :=
  if other < SizeX * SizeY then store buffer index (buffer other) else none

def sweep (body : (Nat → Nat) → Nat → Option (Nat → Nat)) : Nat → (Nat → Nat) → Option (Nat → Nat)
  | 0, buffer => some buffer
  | count + 1, buffer => (sweep body count buffer).bind (fun buffer => body buffer count)

def vga_Init (buffer : Nat → Nat) : Option Screen :=
  (sweep (fun buffer i => store buffer i BLANK) (SizeX * SizeY) buffer).map (fun buffer => ⟨buffer, 0, 0⟩)

/-- Row `i + 1` goes to row `i`; the source counts from 1. -/
def scrollRow (buffer : Nat → Nat) (i : Nat) : Option (Nat → Nat) :=
  sweep (fun buffer j => move buffer (i * SizeX + j) ((i + 1) * SizeX + j)) SizeX buffer

def vga_ScrollDisplay (buffer : Nat → Nat) : Option (Nat → Nat) :=
  (sweep scrollRow (SizeY - 1) buffer).bind
    (sweep (fun buffer j => store buffer ((SizeY - 1) * SizeX + j) BLANK) SizeX)

/-- The end of a line in both branches of `VGA_Putc`. -/
def endLine (s : Screen) : Option Screen :=
  if SizeY - 1 ≤ s.currentY then
    (vga_ScrollDisplay s.videoBuffer).map (fun buffer => { s with videoBuffer := buffer, currentX := 0 })
  else some { s with currentY := s.currentY + 1, currentX := 0 }

/-- `VGA_Putc` but for the tab, with the attribute in `c` already. -/
def putCell (c : Nat) (s : Screen) : Option Screen :=
  if c &&& 0xFF = 0x08 then
    if 0 < s.currentX then
      (store s.videoBuffer (s.currentX - 1 + s.currentY * SizeX) BLANK).map (fun buffer =>
        { s with videoBuffer := buffer, currentX := s.currentX - 1 })
    else some s
  else if c &&& 0xFF = 0x0A then endLine s
  else if c &&& 0xFF = 0x0D then some s
  else
    (store s.videoBuffer (s.currentX + s.currentY * SizeX) c).bind (fun buffer =>
      if s.currentX + 1 = SizeX then endLine { s with videoBuffer := buffer, currentX := s.currentX + 1 }
      else some { s with videoBuffer := buffer, currentX := s.currentX + 1 })

def vga_Putc (c : Nat) (s : Screen) : Option Screen :=
  if glyph c &&& 0xFF = 0x09 then
    putCell BLANK s >>= putCell BLANK >>= putCell BLANK >>= putCell BLANK
  else putCell (glyph c) s

/-- Calls of `VGA_Putc` with unsigned bytes. `VGA_Puts` passes a signed `char`, the same up to 0x7F. -/
def putAll : List UInt8 → Screen → Option Screen
  | [], s => some s
  | c :: text, s => (vga_Putc c.toNat s).bind (putAll text)

/-! The terminal it should be: all lines that were ended, and the current one. -/

structure Terminal where
  lines : List (List Nat)
  current : List Nat

def Terminal.empty : Terminal := ⟨[], []⟩

def Terminal.newline (t : Terminal) : Terminal := ⟨t.lines ++ [t.current], []⟩

def Terminal.print (t : Terminal) (cell : Nat) : Terminal :=
  let longer : Terminal := ⟨t.lines, t.current ++ [cell]⟩
  if longer.current.length = SizeX then longer.newline else longer

def Terminal.put (t : Terminal) (c : UInt8) : Terminal :=
  if c = 0x08 then ⟨t.lines, t.current.dropLast⟩
  else if c = 0x0A then t.newline
  else if c = 0x0D then t
  else if c = 0x09 then (((t.print BLANK).print BLANK).print BLANK).print BLANK
  else t.print (glyph c.toNat)

def Terminal.row (t : Terminal) (y : Nat) : List Nat :=
  (t.lines ++ [t.current]).getD (t.lines.length + 1 - SizeY + y) []

structure Renders (s : Screen) (t : Terminal) : Prop where
  inX : s.currentX < SizeX
  inY : s.currentY < SizeY
  column : s.currentX = t.current.length
  line : s.currentY = min t.lines.length (SizeY - 1)
  cells : ∀ y < SizeY, ∀ x < SizeX, s.videoBuffer (x + y * SizeX) = (t.row y).getD x BLANK

section

variable {buffer : Nat → Nat}

theorem sweep_ran {body : (Nat → Nat) → Nat → Option (Nat → Nat)} (after : Nat → Nat → Nat)
    (count : Nat) (start : after 0 = buffer) (step : ∀ i < count, body (after i) i = some (after (i + 1))) :
    sweep body count buffer = some (after count) := by
  induction count with
  | zero => rw [sweep, start]
  | succ count ih =>
    rw [sweep, ih (fun i less => step i (Nat.lt_succ_of_lt less)), bind_some]
    exact step count (Nat.lt_succ_self count)

theorem sweep_fill (buffer : Nat → Nat) (value first count : Nat) (inside : first + count ≤ SizeX * SizeY) :
    sweep (fun buffer j => store buffer (first + j) value) count buffer =
      some (fun k => if first ≤ k ∧ k < first + count then value else buffer k) := by
  refine sweep_ran (fun i k => if first ≤ k ∧ k < first + i then value else buffer k) count ?_ ?_
  · funext k
    rw [if_neg (by omega)]
  · intro i less
    rw [store, if_pos (by omega)]
    congr 1
    funext k
    by_cases here : k = first + i
    · rw [here, update_self, if_pos (by omega)]
    · rw [update_of_ne here]
      congr 1
      rw [eq_iff_iff]
      omega

theorem scrollRow_ran {i : Nat} (inside : i + 1 < SizeY) :
    scrollRow buffer i =
      some (fun k => if i * SizeX ≤ k ∧ k < (i + 1) * SizeX then buffer (k + SizeX) else buffer k) := by
  unfold scrollRow
  rw [sweep_ran (fun j k => if i * SizeX ≤ k ∧ k < i * SizeX + j then buffer (k + SizeX) else buffer k)]
  · rw [Nat.succ_mul]
  · funext k
    rw [if_neg (by omega)]
  · intro j less
    unfold SizeX SizeY at *
    rw [move, store, if_pos (by unfold SizeX SizeY; omega), if_pos (by unfold SizeX SizeY; omega)]
    congr 1
    funext k
    by_cases here : k = i * 80 + j
    · rw [here, update_self, if_neg (by omega), if_pos (by omega)]
      congr 1
      omega
    · rw [update_of_ne here]
      congr 1
      rw [eq_iff_iff]
      omega

theorem vga_ScrollDisplay_ran : vga_ScrollDisplay buffer =
    some (fun k => if (SizeY - 1) * SizeX ≤ k ∧ k < SizeY * SizeX then BLANK
      else if k < (SizeY - 1) * SizeX then buffer (k + SizeX) else buffer k) := by
  unfold vga_ScrollDisplay
  rw [sweep_ran (fun i k => if k < i * SizeX then buffer (k + SizeX) else buffer k), bind_some,
    sweep_fill _ BLANK ((SizeY - 1) * SizeX) SizeX (by decide)]
  · rfl
  · funext k
    rw [if_neg (by omega)]
  · intro i less
    unfold SizeX SizeY at *
    rw [scrollRow_ran (by unfold SizeY; omega)]
    congr 1
    funext k
    unfold SizeX
    by_cases here : i * 80 ≤ k ∧ k < (i + 1) * 80
    · rw [if_pos here, if_neg (by omega), if_pos (by omega)]
    · rw [if_neg here]
      congr 1
      rw [eq_iff_iff]
      omega

end

section

variable {buffer : Nat → Nat} {t : Terminal} {s : Screen}

def Terminal.bottom (t : Terminal) : Nat := min t.lines.length (SizeY - 1)

def Shows (buffer : Nat → Nat) (t : Terminal) : Prop :=
  ∀ y < SizeY, ∀ x < SizeX, buffer (x + y * SizeX) = (t.row y).getD x BLANK

theorem getD_append_nil (rows : List (List Nat)) (k : Nat) : (rows ++ [[]]).getD k [] = rows.getD k [] := by
  rcases lt_or_ge k rows.length with inside | outside
  · exact getD_append _ _ _ _ inside
  · rw [getD_append_right _ _ _ _ outside, getD_eq_default rows _ outside]
    cases k - rows.length <;> rfl

theorem row_eq (t : Terminal) (y : Nat) : t.row y =
    if y = t.bottom then t.current else t.lines.getD (t.lines.length + 1 - SizeY + y) [] := by
  unfold Terminal.row Terminal.bottom
  by_cases here : y = min t.lines.length (SizeY - 1)
  · have place : t.lines.length + 1 - SizeY + y = t.lines.length := by
      unfold SizeY at *
      omega
    rw [if_pos here, place, getD_append_right _ _ _ _ le_rfl, Nat.sub_self]
    rfl
  · rw [if_neg here]
    rcases lt_or_ge (t.lines.length + 1 - SizeY + y) t.lines.length with above | below
    · exact getD_append _ _ _ _ above
    · have beyond : t.lines.length + 1 ≤ t.lines.length + 1 - SizeY + y := by
        unfold SizeY at *
        omega
      rw [getD_eq_default _ _ (by rw [length_append, length_singleton]; exact beyond),
        getD_eq_default _ _ below]

theorem row_newline (t : Terminal) (y : Nat) :
    t.newline.row y = (t.lines ++ [t.current]).getD (t.lines.length + 2 - SizeY + y) [] := by
  unfold Terminal.row Terminal.newline
  rw [getD_append_nil, length_append, length_singleton]

theorem Shows.edit (shows : Shows buffer t) {x cell : Nat} {current : List Nat} (inX : x < SizeX)
    (same : ∀ i, i ≠ x → current.getD i BLANK = t.current.getD i BLANK) (here : current.getD x BLANK = cell) :
    Shows (update buffer (x + t.bottom * SizeX) cell) ⟨t.lines, current⟩ := by
  intro j inRow i inColumn
  have old := shows j inRow i inColumn
  rw [row_eq] at old ⊢
  show _ = (if j = t.bottom then current else t.lines.getD (t.lines.length + 1 - SizeY + j) []).getD i BLANK
  by_cases row : j = t.bottom
  · rw [if_pos row] at old
    rw [if_pos row, row]
    rw [row] at old
    by_cases column : i = x
    · rw [column, update_self, here]
    · rw [update_of_ne (by omega), same i column]
      exact old
  · rw [if_neg row] at old
    rw [if_neg row]
    have apart : i + j * SizeX ≠ x + t.bottom * SizeX := by
      unfold SizeX at *
      omega
    rw [update_of_ne apart]
    exact old

theorem bottom_inside (t : Terminal) {x : Nat} (inX : x < SizeX) : x + t.bottom * SizeX < SizeX * SizeY := by
  unfold Terminal.bottom SizeX SizeY at *
  omega

theorem endLine_renders (shows : Shows s.videoBuffer t) (line : s.currentY = t.bottom) :
    ∃ s', endLine s = some s' ∧ Renders s' t.newline := by
  have count : t.newline.lines.length = t.lines.length + 1 := by
    rw [Terminal.newline, length_append, length_singleton]
  unfold endLine
  unfold Terminal.bottom at line
  by_cases last : SizeY - 1 ≤ s.currentY
  · rw [if_pos last, vga_ScrollDisplay_ran, map_some]
    refine ⟨_, rfl, Nat.zero_lt_succ _, ?_, rfl, ?_, ?_⟩
    · show s.currentY < SizeY
      unfold SizeY at *
      omega
    · show s.currentY = _
      rw [count]
      omega
    · intro y inRow x inColumn
      have many : SizeY - 1 ≤ t.lines.length := by omega
      rw [row_newline]
      show (if _ then _ else _) = _
      by_cases bottom : y = SizeY - 1
      · have behind : (t.lines ++ [t.current]).length ≤ t.lines.length + 2 - SizeY + y := by
          rw [length_append, length_singleton]
          omega
        rw [if_pos (by unfold SizeX SizeY at *; omega), getD_eq_default _ _ behind]
        rfl
      · have next := shows (y + 1) (by omega) x inColumn
        rw [if_neg (by unfold SizeX SizeY at *; omega), if_pos (by unfold SizeX SizeY at *; omega)]
        rw [Terminal.row, Nat.succ_mul] at next
        rw [add_assoc, next]
        congr 2
        omega
  · rw [if_neg last]
    have few : t.lines.length < SizeY - 1 := by omega
    refine ⟨_, rfl, Nat.zero_lt_succ _, ?_, rfl, ?_, ?_⟩
    · show s.currentY + 1 < SizeY
      omega
    · show s.currentY + 1 = _
      rw [count]
      omega
    · intro y inRow x inColumn
      rw [row_newline]
      show s.videoBuffer (x + y * SizeX) = _
      rw [shows y inRow x inColumn, Terminal.row]
      congr 2
      omega

end

section

variable {s : Screen} {t : Terminal}

theorem Renders.shows (renders : Renders s t) : Shows s.videoBuffer t := renders.cells

theorem Renders.print (renders : Renders s t) {c : Nat} (printed : c &&& 0xFF ≠ 0x08 ∧ c &&& 0xFF ≠ 0x0A ∧
    c &&& 0xFF ≠ 0x0D) : ∃ s', putCell c s = some s' ∧ Renders s' (t.print c) := by
  have column := renders.column
  have line : s.currentY = t.bottom := renders.line
  have inX := renders.inX
  have drawn : Shows (update s.videoBuffer (s.currentX + t.bottom * SizeX) c)
      ⟨t.lines, t.current ++ [c]⟩ := by
    refine renders.shows.edit inX ?_ ?_
    · intro i other
      rcases lt_or_ge i t.current.length with before | after
      · exact getD_append _ _ _ _ before
      · rw [getD_eq_default _ _ after, getD_eq_default]
        rw [length_append, length_singleton]
        omega
    · rw [column, getD_append_right _ _ _ _ le_rfl, Nat.sub_self]
      rfl
  have inside := bottom_inside t inX
  rw [← line] at drawn inside
  unfold putCell Terminal.print
  rw [if_neg printed.1, if_neg printed.2.1, if_neg printed.2.2, store, if_pos inside, bind_some]
  by_cases wraps : s.currentX + 1 = SizeX
  · have full : (t.current ++ [c]).length = SizeX := by
      rw [length_append, length_singleton, ← column]
      exact wraps
    rw [if_pos wraps, if_pos full]
    exact endLine_renders drawn line
  · have short : (t.current ++ [c]).length ≠ SizeX := by
      rw [length_append, length_singleton, ← column]
      exact wraps
    rw [if_neg wraps, if_neg short]
    refine ⟨_, rfl, ?_, renders.inY, ?_, line, drawn⟩
    · show s.currentX + 1 < SizeX
      omega
    · show s.currentX + 1 = _
      rw [length_append, length_singleton, column]

theorem Renders.back (renders : Renders s t) {c : Nat} (back : c &&& 0xFF = 0x08) :
    ∃ s', putCell c s = some s' ∧ Renders s' ⟨t.lines, t.current.dropLast⟩ := by
  have column := renders.column
  have line : s.currentY = t.bottom := renders.line
  have inX := renders.inX
  unfold putCell
  rw [if_pos back]
  by_cases some_left : 0 < s.currentX
  · have drawn : Shows (update s.videoBuffer (s.currentX - 1 + t.bottom * SizeX) BLANK)
        ⟨t.lines, t.current.dropLast⟩ := by
      refine renders.shows.edit (by omega) ?_ ?_
      · intro i other
        rcases lt_or_ge i (t.current.length - 1) with before | after
        · rw [getD_eq_getElem _ _ (by rw [length_dropLast]; exact before),
            getD_eq_getElem _ _ (by omega), getElem_dropLast]
        · rw [getD_eq_default _ _ (by rw [length_dropLast]; exact after),
            getD_eq_default _ _ (by omega)]
      · rw [getD_eq_default]
        rw [length_dropLast, column]
    have inside := bottom_inside t (show s.currentX - 1 < SizeX by omega)
    rw [← line] at drawn inside
    rw [if_pos some_left, store, if_pos inside, map_some]
    refine ⟨_, rfl, ?_, renders.inY, ?_, line, drawn⟩
    · show s.currentX - 1 < SizeX
      omega
    · show s.currentX - 1 = _
      rw [length_dropLast, column]
  · have empty : t.current = [] := length_eq_zero_iff.mp (by omega)
    rw [if_neg some_left]
    refine ⟨s, rfl, ?_⟩
    rw [empty, dropLast_nil, ← empty]
    exact renders

theorem glyph_low : ∀ c < 256, glyph c &&& 0xFF = c := by decide +kernel

theorem code_iff (c k : UInt8) : c = k ↔ glyph c.toNat &&& 0xFF = k.toNat := by
  rw [glyph_low c.toNat c.toNat_lt]
  exact UInt8.toNat_inj.symm

theorem Renders.put (renders : Renders s t) (c : UInt8) :
    ∃ s', vga_Putc c.toNat s = some s' ∧ Renders s' (t.put c) := by
  have isTab : c = 0x09 ↔ glyph c.toNat &&& 0xFF = 0x09 := code_iff c 0x09
  have isBack : c = 0x08 ↔ glyph c.toNat &&& 0xFF = 0x08 := code_iff c 0x08
  have isNewline : c = 0x0A ↔ glyph c.toNat &&& 0xFF = 0x0A := code_iff c 0x0A
  have isReturn : c = 0x0D ↔ glyph c.toNat &&& 0xFF = 0x0D := code_iff c 0x0D
  unfold vga_Putc Terminal.put
  by_cases tab : c = 0x09
  · rw [if_pos (isTab.mp tab), tab, if_neg (by decide), if_neg (by decide), if_neg (by decide),
      if_pos rfl]
    have blank : BLANK &&& 0xFF ≠ 0x08 ∧ BLANK &&& 0xFF ≠ 0x0A ∧ BLANK &&& 0xFF ≠ 0x0D := by decide
    obtain ⟨s₁, ran₁, renders₁⟩ := renders.print blank
    obtain ⟨s₂, ran₂, renders₂⟩ := renders₁.print blank
    obtain ⟨s₃, ran₃, renders₃⟩ := renders₂.print blank
    obtain ⟨s₄, ran₄, renders₄⟩ := renders₃.print blank
    refine ⟨s₄, ?_, renders₄⟩
    simp only [bind_eq_bind, ran₁, ran₂, ran₃, ran₄, bind_some]
  rw [if_neg (fun low => tab (isTab.mpr low))]
  by_cases back : c = 0x08
  · rw [if_pos back]
    exact renders.back (isBack.mp back)
  rw [if_neg back]
  have notBack : glyph c.toNat &&& 0xFF ≠ 0x08 := fun low => back (isBack.mpr low)
  by_cases newline : c = 0x0A
  · rw [if_pos newline]
    unfold putCell
    rw [if_neg notBack, if_pos (isNewline.mp newline)]
    exact endLine_renders renders.shows renders.line
  rw [if_neg newline]
  have notNewline : glyph c.toNat &&& 0xFF ≠ 0x0A := fun low => newline (isNewline.mpr low)
  by_cases ret : c = 0x0D
  · rw [if_pos ret]
    unfold putCell
    rw [if_neg notBack, if_neg notNewline, if_pos (isReturn.mp ret)]
    exact ⟨s, rfl, renders⟩
  rw [if_neg ret, if_neg tab]
  exact renders.print ⟨notBack, notNewline, fun low => ret (isReturn.mpr low)⟩

theorem Renders.putAll (text : List UInt8) : ∀ {s : Screen} {t : Terminal}, Renders s t →
    ∃ s', Vga.putAll text s = some s' ∧ Renders s' (text.foldl Terminal.put t) := by
  induction text with
  | nil =>
    intro s t renders
    exact ⟨s, rfl, renders⟩
  | cons c text ih =>
    intro s t renders
    obtain ⟨s', ran, next⟩ := renders.put c
    obtain ⟨final, rest, shown⟩ := ih next
    exact ⟨final, by rw [Vga.putAll, ran, bind_some, rest], shown⟩

end

theorem vga_Init_renders (buffer : Nat → Nat) : ∃ s, vga_Init buffer = some s ∧ Renders s Terminal.empty := by
  unfold vga_Init
  have filled := sweep_fill buffer BLANK 0 (SizeX * SizeY) (by decide)
  simp only [zero_add] at filled
  rw [filled, map_some]
  refine ⟨_, rfl, Nat.zero_lt_succ _, Nat.zero_lt_succ _, rfl, rfl, ?_⟩
  intro y inRow x inColumn
  show (if _ then _ else _) = _
  rw [if_pos (by unfold SizeX SizeY at *; omega), row_eq]
  split <;> rfl

/-- From `VGA_Init` on, the screen shows the terminal after every call of `VGA_Putc`, and no access is
outside the screen. -/
theorem vga_renders (buffer : Nat → Nat) (text : List UInt8) :
    ∃ s, (vga_Init buffer).bind (putAll text) = some s ∧
      Renders s (text.foldl Terminal.put Terminal.empty) := by
  obtain ⟨s, ran, renders⟩ := vga_Init_renders buffer
  rw [ran, bind_some]
  exact renders.putAll text

end BoringOs.Vga
