import BoringOs.Lib.Runs
import Mathlib.Data.BitVec

/-! The keyboard driver, after `sys/dev/x86/ps2.c`: the scancodes that `PS2_KeyboardIntr` reads, and the
keys that it passes to `Console_EnqueueKey`. -/

namespace BoringOs.Ps2

open Runs

def KS_SHIFT : BitVec 32 := 0x01
def KS_ALT : BitVec 32 := 0x02
def KS_CONTROL : BitVec 32 := 0x04
def KS_CAPSLOCK : BitVec 32 := 0x08
def KS_NUMLOCK : BitVec 32 := 0x10
def KS_SCROLLLOCK : BitVec 32 := 0x20
def KS_E0ESCAPE : BitVec 32 := 0x30

def row (chars : List Char) : List UInt8 := chars.map (fun c => UInt8.ofNat c.toNat)

/-- The entries of a map behind those of the main keys, from index 56 on: `KEY_F1` to `KEY_F12` and the
keypad. All other entries are zero. -/
def lastRows : List UInt8 :=
  [0x00, 0x20, 0xF1, 0xF2, 0xF3, 0xF4, 0xF5,
    0xF6, 0xF7, 0xF8, 0xF9, 0xFA, 0x00, 0x00] ++
  row ['7', '8', '9', '-', '4', '5', '6', '+', '1', '2', '3', '0', '.'] ++
  [0x00, 0x00, 0x00, 0xFB, 0xFC]

def keyMap : List UInt8 :=
  [0x00, 0x1B] ++ row ['1', '2', '3', '4', '5', '6', '7', '8', '9', '0', '-', '='] ++ [0x08, 0x09] ++
  row ['q', 'w', 'e', 'r', 't', 'y', 'u', 'i', 'o', 'p', '[', ']'] ++ [0x0A, 0x00] ++
  row ['a', 's', 'd', 'f', 'g', 'h', 'j', 'k', 'l', ';'] ++ [0x27, 0x60, 0x00, 0x5C] ++
  row ['z', 'x', 'c', 'v', 'b', 'n', 'm', ',', '.', '/'] ++ [0x00, 0x2A] ++ lastRows

def shiftKeyMap : List UInt8 :=
  [0x00, 0x1B] ++ row ['!', '@', '#', '$', '%', '^', '&', '*', '(', ')', '_', '+'] ++ [0x08, 0x09] ++
  row ['Q', 'W', 'E', 'R', 'T', 'Y', 'U', 'I', 'O', 'P'] ++ [0x7B, 0x7D, 0x0A, 0x00] ++
  row ['A', 'S', 'D', 'F', 'G', 'H', 'J', 'K', 'L', ':'] ++ [0x22, 0x7E, 0x00, 0x7C] ++
  row ['Z', 'X', 'C', 'V', 'B', 'N', 'M', '<', '>', '?'] ++ [0x00, 0x2A] ++ lastRows

def controlKeyMap : List UInt8 := []

def entry (map : List UInt8) (data : UInt8) : UInt8 := map.getD data.toNat 0

def release (data : UInt8) (keyState : BitVec 32) : BitVec 32 :=
  let keyState := if data = 0xAA ∨ data = 0xB6 then keyState &&& ~~~KS_SHIFT else keyState
  let keyState := if data = 0x9D then keyState &&& ~~~KS_CONTROL else keyState
  if data = 0x38 then keyState &&& ~~~KS_ALT else keyState

def press (data : UInt8) (keyState : BitVec 32) : BitVec 32 :=
  let keyState := if data = 0x2A ∨ data = 0x36 then keyState ||| KS_SHIFT else keyState
  let keyState := if data = 0x1D then keyState ||| KS_CONTROL else keyState
  let keyState := if data = 0x38 then keyState ||| KS_ALT else keyState
  let keyState := if data = 0x3A then keyState ^^^ KS_CAPSLOCK else keyState
  let keyState := if data = 0x45 then keyState ^^^ KS_NUMLOCK else keyState
  if data = 0x46 then keyState ^^^ KS_SCROLLLOCK else keyState

def decode (data : UInt8) (keyState : BitVec 32) : UInt8 :=
  let isShift := decide (keyState &&& KS_SHIFT ≠ 0) ^^ decide (keyState &&& KS_CAPSLOCK ≠ 0)
  if keyState &&& KS_CONTROL ≠ 0 then entry controlKeyMap data
  else if isShift then entry shiftKeyMap data
  else entry keyMap data

/-- What a round of the loop does: the state, the call of `Console_EnqueueKey` if there is one, and
whether it calls `breakpoint`. -/
structure Round where
  keyState : BitVec 32
  key : Option UInt8
  stops : Bool

def ps2_KeyboardIntr (data : UInt8) (keyState : BitVec 32) : Round :=
  if data = 0xE0 then ⟨keyState ||| KS_E0ESCAPE, none, false⟩
  else if data &&& 0x80 ≠ 0 then ⟨release data keyState, none, false⟩
  else
    let keyState := press data keyState
    if keyState &&& KS_E0ESCAPE ≠ 0 then ⟨keyState &&& ~~~KS_E0ESCAPE, none, false⟩
    else
      ⟨keyState, if decode data keyState = 0 then none else some (decode data keyState),
        decide (keyState &&& (KS_ALT ||| KS_CONTROL) = KS_ALT ||| KS_CONTROL) && decide (data = 0x0E)⟩

/-! The keys themselves: which ones are held, with and without the prefix, and how often each was
pressed. -/

structure Keys where
  escaped : Bool
  held : Bool → UInt8 → Bool
  presses : UInt8 → Nat

def Keys.up : Keys := ⟨false, fun _ _ => false, fun _ => 0⟩

def Keys.set (keys : Keys) (code : UInt8) (down : Bool) : Keys where
  escaped := false
  held side other := if side = keys.escaped ∧ other = code then down else keys.held side other
  presses other := if down ∧ other = code then keys.presses other + 1 else keys.presses other

def Keys.step (keys : Keys) (data : UInt8) : Keys :=
  if data = 0xE0 then { keys with escaped := true }
  else if data &&& 0x80 ≠ 0 then keys.set (data - 0x80) false
  else keys.set data true

def Keys.any (keys : Keys) (code : UInt8) : Bool := keys.held false code || keys.held true code

def Keys.shift (keys : Keys) : Bool := keys.any 0x2A || keys.any 0x36

def Keys.locked (keys : Keys) (code : UInt8) : Bool := decide (keys.presses code % 2 = 1)

def Keys.entry (keys : Keys) (data : UInt8) : UInt8 :=
  if keys.any 0x1D then Ps2.entry controlKeyMap data
  else if keys.shift ^^ keys.locked 0x3A then Ps2.entry shiftKeyMap data
  else Ps2.entry keyMap data

/-- The driver beside the keys, with what it has passed to `Console_EnqueueKey`. -/
structure Keyboard where
  keyState : BitVec 32
  enqueued : List UInt8
  keys : Keys

/-- After `PS2_Init`. -/
def Keyboard.init : Keyboard := ⟨0, [], Keys.up⟩

def Keyboard.apply (s : Keyboard) (data : UInt8) : Option Keyboard :=
  let round := ps2_KeyboardIntr data s.keyState
  some ⟨round.keyState, s.enqueued ++ round.key.toList, s.keys.step data⟩

def isSet (keyState flag : BitVec 32) : Bool := decide (keyState &&& flag ≠ 0)

/-- The flags say what is held and locked, and a key without prefix is passed on once. -/
structure Follows (s : Keyboard) (data : UInt8) (t : Keyboard) : Prop where
  shift : isSet t.keyState KS_SHIFT = t.keys.shift
  control : isSet t.keyState KS_CONTROL = t.keys.any 0x1D
  alt : isSet t.keyState KS_ALT = t.keys.any 0x38
  caps : isSet t.keyState KS_CAPSLOCK = t.keys.locked 0x3A
  num : isSet t.keyState KS_NUMLOCK = t.keys.locked 0x45
  scroll : isSet t.keyState KS_SCROLLLOCK = t.keys.locked 0x46
  passed : s.keys.escaped = false → data ≠ 0xE0 → data &&& 0x80 = 0 → t.enqueued = s.enqueued ++
    if t.keys.entry data = 0 then [] else [t.keys.entry data]

instance (s : Keyboard) (data : UInt8) (t : Keyboard) : Decidable (Follows s data t) :=
  decidable_of_iff (isSet t.keyState KS_SHIFT = t.keys.shift ∧
    isSet t.keyState KS_CONTROL = t.keys.any 0x1D ∧ isSet t.keyState KS_ALT = t.keys.any 0x38 ∧
    isSet t.keyState KS_CAPSLOCK = t.keys.locked 0x3A ∧ isSet t.keyState KS_NUMLOCK = t.keys.locked 0x45 ∧
    isSet t.keyState KS_SCROLLLOCK = t.keys.locked 0x46 ∧
    (s.keys.escaped = false → data ≠ 0xE0 → data &&& 0x80 = 0 → t.enqueued = s.enqueued ++
      if t.keys.entry data = 0 then [] else [t.keys.entry data]))
    ⟨fun ⟨a, b, c, d, e, f, g⟩ => ⟨a, b, c, d, e, f, g⟩, fun ⟨a, b, c, d, e, f, g⟩ => ⟨a, b, c, d, e, f, g⟩⟩

/-- The bytes that the driver can follow: no prefix, no press of Num or Scroll Lock, no release of Alt
while it is held, and no release of a shift while the other one is held. -/
structure Tame (s : Keyboard) (data : UInt8) (_ : Keyboard) : Prop where
  plain : data ≠ 0xE0
  num : data ≠ 0x45
  scroll : data ≠ 0x46
  alt : data = 0xB8 → s.keys.any 0x38 = false
  left : data = 0xAA → s.keys.any 0x36 = false
  right : data = 0xB6 → s.keys.any 0x2A = false

instance (s : Keyboard) (data : UInt8) (t : Keyboard) : Decidable (Tame s data t) :=
  decidable_of_iff (data ≠ 0xE0 ∧ data ≠ 0x45 ∧ data ≠ 0x46 ∧ (data = 0xB8 → s.keys.any 0x38 = false) ∧
    (data = 0xAA → s.keys.any 0x36 = false) ∧ (data = 0xB6 → s.keys.any 0x2A = false))
    ⟨fun ⟨a, b, c, d, e, f⟩ => ⟨a, b, c, d, e, f⟩, fun ⟨a, b, c, d, e, f⟩ => ⟨a, b, c, d, e, f⟩⟩

def flags (shift alt control caps : Bool) : BitVec 32 :=
  (if shift then KS_SHIFT else 0) ||| (if alt then KS_ALT else 0) |||
    (if control then KS_CONTROL else 0) ||| (if caps then KS_CAPSLOCK else 0)

section

variable (shift alt control caps : Bool) {data : UInt8}

theorem isSet_flags : isSet (flags shift alt control caps) KS_SHIFT = shift ∧
    isSet (flags shift alt control caps) KS_ALT = alt ∧
    isSet (flags shift alt control caps) KS_CONTROL = control ∧
    isSet (flags shift alt control caps) KS_CAPSLOCK = caps ∧
    isSet (flags shift alt control caps) KS_NUMLOCK = false ∧
    isSet (flags shift alt control caps) KS_SCROLLLOCK = false ∧
    flags shift alt control caps &&& KS_E0ESCAPE = 0 := by
  revert shift alt control caps
  decide

theorem release_flags (high : data &&& 0x80 ≠ 0) : release data (flags shift alt control caps) =
    flags (shift && !decide (data = 0xAA ∨ data = 0xB6)) alt (control && !decide (data = 0x9D)) caps := by
  have noAlt : data ≠ 0x38 := by
    rintro rfl
    exact high (by decide)
  unfold release
  by_cases shiftKey : data = 0xAA ∨ data = 0xB6
  · have other : data ≠ 0x9D := by
      rcases shiftKey with rfl | rfl <;> decide
    simp only [shiftKey, other, noAlt, ↓reduceIte, decide_true, decide_false]
    revert shift alt control caps
    decide
  · by_cases controlKey : data = 0x9D
    · subst controlKey
      revert shift alt control caps
      decide
    · simp only [shiftKey, controlKey, noAlt, ↓reduceIte, decide_false, Bool.not_false, Bool.and_true]

theorem press_flags (num : data ≠ 0x45) (scroll : data ≠ 0x46) : press data (flags shift alt control caps) =
    flags (shift || decide (data = 0x2A ∨ data = 0x36)) (alt || decide (data = 0x38))
      (control || decide (data = 0x1D)) (caps ^^ decide (data = 0x3A)) := by
  unfold press
  by_cases shiftKey : data = 0x2A ∨ data = 0x36
  · rcases shiftKey with rfl | rfl <;> (revert shift alt control caps; decide)
  by_cases controlKey : data = 0x1D
  · subst controlKey
    revert shift alt control caps
    decide
  by_cases altKey : data = 0x38
  · subst altKey
    revert shift alt control caps
    decide
  by_cases capsKey : data = 0x3A
  · subst capsKey
    revert shift alt control caps
    decide
  simp only [shiftKey, controlKey, altKey, capsKey, num, scroll, ↓reduceIte, decide_false, Bool.or_false,
    Bool.xor_false]

theorem decode_flags (data : UInt8) : decode data (flags shift alt control caps) =
    if control then entry controlKeyMap data
    else if shift ^^ caps then entry shiftKeyMap data
    else entry keyMap data := by
  obtain ⟨isShift, _, isControl, isCaps, _⟩ := isSet_flags shift alt control caps
  unfold isSet at isShift isControl isCaps
  unfold decode
  rw [isShift, isCaps]
  by_cases held : control = true
  · rw [held, decide_eq_true_eq] at isControl
    rw [held, if_pos isControl, if_pos rfl]
  · rw [Bool.not_eq_true] at held
    rw [held, decide_eq_false_iff_not] at isControl
    rw [held, if_neg isControl, if_neg Bool.false_ne_true]

theorem broken_flags : isSet (ps2_KeyboardIntr 0xE0 (flags shift alt control caps)).keyState KS_NUMLOCK = true ∧
    isSet (ps2_KeyboardIntr 0x45 (flags shift alt control caps)).keyState KS_NUMLOCK = false ∧
    isSet (ps2_KeyboardIntr 0x46 (flags shift alt control caps)).keyState KS_SCROLLLOCK = false ∧
    isSet (ps2_KeyboardIntr 0xB8 (flags shift alt control caps)).keyState KS_ALT = alt ∧
    isSet (ps2_KeyboardIntr 0xAA (flags shift alt control caps)).keyState KS_SHIFT = false ∧
    isSet (ps2_KeyboardIntr 0xB6 (flags shift alt control caps)).keyState KS_SHIFT = false := by
  revert shift alt control caps
  decide

end

section

variable {s t : Keyboard} {data : UInt8}

/-- The flags are those of the keys, no key is held with its prefix, and the locks that share their bits
with the prefix are off. -/
structure Inv (s : Keyboard) : Prop where
  state : s.keyState = flags s.keys.shift (s.keys.any 0x38) (s.keys.any 0x1D) (s.keys.locked 0x3A)
  escaped : s.keys.escaped = false
  plain : ∀ code, s.keys.held true code = false
  num : s.keys.locked 0x45 = false
  scroll : s.keys.locked 0x46 = false

theorem Inv.any_set (inv : Inv s) (code other : UInt8) (down : Bool) :
    (s.keys.set code down).any other = if other = code then down else s.keys.any other := by
  unfold Keys.any Keys.set
  rw [inv.escaped, inv.plain other]
  by_cases same : other = code
  · simp [same, inv.plain code]
  · simp [same, inv.plain other]

theorem locked_set (keys : Keys) (code other : UInt8) (down : Bool) :
    (keys.set code down).locked other = (keys.locked other ^^ decide (down = true ∧ other = code)) := by
  unfold Keys.locked Keys.set
  by_cases pressed : down = true ∧ other = code
  · simp only [pressed, and_self, ↓reduceIte, decide_true, Bool.xor_true]
    rw [← decide_not]
    congr 1
    rw [eq_iff_iff]
    omega
  · simp only [pressed, ↓reduceIte, decide_false, Bool.xor_false]

theorem locked_released (keys : Keys) (code other : UInt8) :
    (keys.set code false).locked other = keys.locked other := by
  rw [locked_set]
  simp

theorem Inv.plain_set (inv : Inv s) (code : UInt8) (down : Bool) (other : UInt8) :
    (s.keys.set code down).held true other = false := by
  unfold Keys.set
  rw [inv.escaped]
  simp [inv.plain other]

theorem Inv.follows (inv : Inv t)
    (passed : s.keys.escaped = false → data ≠ 0xE0 → data &&& 0x80 = 0 → t.enqueued = s.enqueued ++
      if t.keys.entry data = 0 then [] else [t.keys.entry data]) : Follows s data t := by
  obtain ⟨isShift, isAlt, isControl, isCaps, isNum, isScroll, _⟩ :=
    isSet_flags t.keys.shift (t.keys.any 0x38) (t.keys.any 0x1D) (t.keys.locked 0x3A)
  rw [← inv.state] at isShift isAlt isControl isCaps isNum isScroll
  exact ⟨isShift, isControl, isAlt, isCaps, isNum.trans inv.num.symm, isScroll.trans inv.scroll.symm, passed⟩

section

variable (inv : Inv s)
include inv

theorem Inv.any_released (data other : UInt8) :
    (s.keys.set (data - 0x80) false).any other = (s.keys.any other && !decide (data = other + 0x80)) := by
  rw [inv.any_set]
  by_cases here : data = other + 0x80
  · rw [if_pos (UInt8.eq_sub_iff_add_eq.mpr here.symm), decide_eq_true here, Bool.not_true, Bool.and_false]
  · rw [if_neg (fun same => here (UInt8.eq_sub_iff_add_eq.mp same).symm), decide_eq_false here, Bool.not_false,
      Bool.and_true]

theorem Inv.any_pressed (data other : UInt8) :
    (s.keys.set data true).any other = (s.keys.any other || decide (data = other)) := by
  rw [inv.any_set]
  by_cases here : data = other
  · rw [if_pos here.symm, decide_eq_true here, Bool.or_true]
  · rw [if_neg (fun same => here same.symm), decide_eq_false here, Bool.or_false]

theorem Inv.keep_release (moved : s.apply data = some t) (tame : Tame s data t)
    (high : data &&& 0x80 ≠ 0) : Follows s data t ∧ Inv t := by
  obtain rfl : ⟨release data s.keyState, s.enqueued ++ [], s.keys.set (data - 0x80) false⟩ = t := by
    rw [← Option.some.inj moved, ps2_KeyboardIntr, Keys.step, if_neg tame.plain, if_pos high,
      if_neg tame.plain, if_pos high]
    rfl
  have shift : (s.keys.set (data - 0x80) false).shift =
      (s.keys.shift && !decide (data = 0xAA ∨ data = 0xB6)) := by
    unfold Keys.shift
    rw [inv.any_released, inv.any_released]
    by_cases left : data = 0xAA
    · rw [tame.left left, left]
      simp
    by_cases right : data = 0xB6
    · rw [tame.right right, right]
      simp
    · have neither : ¬ (data = 0xAA ∨ data = 0xB6) := fun one => one.elim left right
      have left' : data ≠ 0x2A + 0x80 := left
      have right' : data ≠ 0x36 + 0x80 := right
      simp only [neither, left', right', decide_false, Bool.not_false, Bool.and_true]
  have alt : (s.keys.set (data - 0x80) false).any 0x38 = s.keys.any 0x38 := by
    rw [inv.any_released]
    by_cases released : data = 0xB8
    · rw [tame.alt released, Bool.false_and]
    · have other : data ≠ 0x38 + 0x80 := released
      rw [decide_eq_false other, Bool.not_false, Bool.and_true]
  have kept : Inv ⟨release data s.keyState, s.enqueued ++ [], s.keys.set (data - 0x80) false⟩ := by
    refine ⟨?_, rfl, inv.plain_set _ _, ?_, ?_⟩
    · show release data s.keyState = flags (s.keys.set _ _).shift ((s.keys.set _ _).any 0x38)
        ((s.keys.set _ _).any 0x1D) ((s.keys.set _ _).locked 0x3A)
      rw [inv.state, release_flags _ _ _ _ high, shift, alt, inv.any_released, locked_released]
      rfl
    · show (s.keys.set _ _).locked _ = _
      rw [locked_released, inv.num]
    · show (s.keys.set _ _).locked _ = _
      rw [locked_released, inv.scroll]
  exact ⟨kept.follows (fun _ _ low => absurd low high), kept⟩

theorem Inv.keep_press (moved : s.apply data = some t) (tame : Tame s data t)
    (low : data &&& 0x80 = 0) : Follows s data t ∧ Inv t := by
  have pressed := press_flags s.keys.shift (s.keys.any 0x38) (s.keys.any 0x1D) (s.keys.locked 0x3A)
    tame.num tame.scroll
  have shift : (s.keys.set data true).shift = (s.keys.shift || decide (data = 0x2A ∨ data = 0x36)) := by
    unfold Keys.shift
    rw [inv.any_pressed, inv.any_pressed, Bool.decide_or]
    cases s.keys.any 0x2A <;> cases s.keys.any 0x36 <;> simp
  have caps : (s.keys.set data true).locked 0x3A = (s.keys.locked 0x3A ^^ decide (data = 0x3A)) := by
    rw [locked_set]
    simp only [true_and, eq_comm]
  rw [← shift, ← inv.any_pressed, ← inv.any_pressed, ← caps, ← inv.state] at pressed
  have escape := (isSet_flags (s.keys.set data true).shift ((s.keys.set data true).any 0x38)
    ((s.keys.set data true).any 0x1D) ((s.keys.set data true).locked 0x3A)).2.2.2.2.2.2
  have selected : decode data (press data s.keyState) = (s.keys.set data true).entry data := by
    rw [pressed, decode_flags]
    rfl
  obtain rfl : ⟨press data s.keyState, s.enqueued ++
      (if (s.keys.set data true).entry data = 0 then [] else [(s.keys.set data true).entry data]),
      s.keys.set data true⟩ = t := by
    rw [← Option.some.inj moved, ps2_KeyboardIntr, Keys.step, if_neg tame.plain,
      if_neg (not_not.mpr low), if_neg tame.plain, if_neg (not_not.mpr low)]
    rw [← pressed] at escape
    simp only [escape, selected, ne_eq, not_true_eq_false, ↓reduceIte]
    congr 2
    split <;> rfl
  have kept : Inv ⟨press data s.keyState, s.enqueued ++
      (if (s.keys.set data true).entry data = 0 then [] else [(s.keys.set data true).entry data]),
      s.keys.set data true⟩ := by
    refine ⟨pressed, rfl, inv.plain_set _ _, ?_, ?_⟩
    · show (s.keys.set _ _).locked _ = _
      rw [locked_set, inv.num, decide_eq_false (fun same => tame.num same.2.symm)]
      rfl
    · show (s.keys.set _ _).locked _ = _
      rw [locked_set, inv.scroll, decide_eq_false (fun same => tame.scroll same.2.symm)]
      rfl
  exact ⟨kept.follows (fun _ _ _ => rfl), kept⟩

theorem Inv.breaks (moved : s.apply data = some t) (wild : ¬ Tame s data t) : ¬ Follows s data t := by
  intro follows
  obtain rfl := Option.some.inj moved
  have numOff := inv.num
  have scrollOff := inv.scroll
  have state := inv.state
  obtain ⟨escapes, noNum, noScroll, keepsAlt, endsLeft, endsRight⟩ :=
    broken_flags s.keys.shift (s.keys.any 0x38) (s.keys.any 0x1D) (s.keys.locked 0x3A)
  rw [← state] at escapes noNum noScroll keepsAlt endsLeft endsRight
  refine wild ⟨?_, ?_, ?_, ?_, ?_, ?_⟩
  · rintro rfl
    have num := follows.num
    have same : (s.keys.step 0xE0).locked 0x45 = s.keys.locked 0x45 := rfl
    rw [same, numOff] at num
    exact Bool.false_ne_true (num.symm.trans escapes)
  · rintro rfl
    have num := follows.num
    have odd : (s.keys.step 0x45).locked 0x45 = true := by
      show (s.keys.set 0x45 true).locked 0x45 = true
      rw [locked_set, numOff]
      rfl
    rw [odd] at num
    exact Bool.false_ne_true (noNum.symm.trans num)
  · rintro rfl
    have scroll := follows.scroll
    have odd : (s.keys.step 0x46).locked 0x46 = true := by
      show (s.keys.set 0x46 true).locked 0x46 = true
      rw [locked_set, scrollOff]
      rfl
    rw [odd] at scroll
    exact Bool.false_ne_true (noScroll.symm.trans scroll)
  · rintro rfl
    by_contra held
    rw [Bool.not_eq_false] at held
    have alt := follows.alt
    have up : (s.keys.step 0xB8).any 0x38 = false := by
      show (s.keys.set (0xB8 - 0x80) false).any 0x38 = false
      rw [inv.any_released]
      exact Bool.and_false _
    rw [up] at alt
    exact Bool.false_ne_true (alt.symm.trans (keepsAlt.trans held))
  · rintro rfl
    by_contra held
    rw [Bool.not_eq_false] at held
    have shift := follows.shift
    have down : (s.keys.step 0xAA).shift = true := by
      show ((s.keys.set (0xAA - 0x80) false).any 0x2A || (s.keys.set (0xAA - 0x80) false).any 0x36) = true
      rw [inv.any_released, inv.any_released, held]
      exact Bool.or_true _
    rw [down] at shift
    exact Bool.false_ne_true (endsLeft.symm.trans shift)
  · rintro rfl
    by_contra held
    rw [Bool.not_eq_false] at held
    have shift := follows.shift
    have down : (s.keys.step 0xB6).shift = true := by
      show ((s.keys.set (0xB6 - 0x80) false).any 0x2A || (s.keys.set (0xB6 - 0x80) false).any 0x36) = true
      rw [inv.any_released, inv.any_released, held]
      rfl
    rw [down] at shift
    exact Bool.false_ne_true (endsRight.symm.trans shift)

end

end

theorem Inv.init : Inv Keyboard.init := ⟨by decide, rfl, fun _ => rfl, by decide, by decide⟩

/-- The driver follows the keys along a sequence of scancodes exactly when all of them are tame. -/
theorem ps2_follows_iff (scancodes : List UInt8) :
    Along Keyboard.apply Follows Keyboard.init scancodes ↔ Along Keyboard.apply Tame Keyboard.init scancodes := by
  refine along_iff Inv ?_ ?_ Inv.init scancodes
  · intro s data t inv moved tame
    by_cases low : data &&& 0x80 = 0
    · exact inv.keep_press moved tame low
    · exact inv.keep_release moved tame low
  · intro s data t inv moved wild
    exact inv.breaks moved wild

/-- The keys after a sequence of scancodes. -/
def typed (scancodes : List UInt8) : Keyboard :=
  scancodes.foldl (fun s data => (s.apply data).getD s) Keyboard.init

/-- Alt stays set when it is released; the release of a key with a prefix swallows the next key; Num Lock
is never set; and with both shifts held the release of one ends both. -/
theorem ps2_loses_keys :
    (isSet (typed [0x38, 0xB8]).keyState KS_ALT = true ∧ (typed [0x38, 0xB8]).keys.any 0x38 = false) ∧
    ((typed [0xE0, 0xC8, 0x1E]).enqueued = [] ∧ (typed [0xE0, 0xC8, 0x1E]).keys.entry 0x1E = 97) ∧
    (isSet (typed [0x45]).keyState KS_NUMLOCK = false ∧ (typed [0x45]).keys.locked 0x45 = true) ∧
    isSet (typed [0x2A, 0x36, 0xB6]).keyState KS_SHIFT = false ∧ (typed [0x2A, 0x36, 0xB6]).keys.shift = true := by
  decide

end BoringOs.Ps2
