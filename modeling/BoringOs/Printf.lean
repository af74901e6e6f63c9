import BoringOs.Errno
import Mathlib.Data.Nat.Digits.Lemmas

/-! Formatted output, after `lib/libc/printf.c` and `sys/kern/printf.c`, whose versions of
`kvprintf` differ in `%s` with `NULL` only. A variadic argument is a 64-bit word or the string that
a pointer leads to; there is no result if one is missing or of the other kind, or if the format ends
inside a conversion. -/

namespace BoringOs.Printf

open List Function Option

def PERCENT : UInt8 := 37
def MINUS : UInt8 := 45
def SPACE : UInt8 := 32
def ZERO : UInt8 := 48

inductive Arg where
  | word (value : Nat)
  | str (chars : Option (List UInt8))

def numberstring (upper : Bool) (digit : Nat) : UInt8 :=
  if digit < 10 then UInt8.ofNat (48 + digit)
  else if upper then UInt8.ofNat (55 + digit) else UInt8.ofNat (87 + digit)

/-- The loop that fills `buf`, with `room` bytes of it left; the last digit is the first one stored. -/
def digitsLoop (upper : Bool) (base : Nat) : Nat → Nat → Option (List UInt8)
  | 0, _ => none
  | room + 1, num =>
    let digit := numberstring upper (num % base)
    if num / base = 0 then some [digit]
    else (digitsLoop upper base room (num / base)).map (digit :: ·)

section

variable {State : Type} (func : UInt8 → State → State)

def emit (chars : List UInt8) (handle : State) : State := chars.foldl (fun s ch => func ch s) handle

def printnum (num : Nat) (base : Nat) (upper : Bool) (width : Int) (padc : UInt8) (handle : State) :
    Option State :=
  (digitsLoop upper base 64 num).map (fun buf =>
    let spaces := (width - buf.length).toNat
    let handle := if padc = SPACE ∨ padc = ZERO then emit func (List.replicate spaces padc) handle else handle
    let handle := emit func buf.reverse handle
    if padc = MINUS then emit func (List.replicate spaces SPACE) handle else handle)

structure Spec where
  width : Int
  lflag : Nat
  padc : UInt8

/-- Where `kvprintf` is in the format: in text, at the label `again`, or in the loop for the width. -/
inductive Mode where
  | text
  | again (spec : Spec)
  | width (spec : Spec)

def wrap32 (value : Int) : Int := (value + 2 ^ 31) % 2 ^ 32 - 2 ^ 31

def getuint (lflag value : Nat) : Nat := if lflag = 8 then value % 2 ^ 64 else value % 2 ^ 32

def getint (lflag value : Nat) : Int :=
  if lflag = 8 then (BitVec.ofNat 64 value).toInt else (BitVec.ofNat 32 value).toInt

def convert (base : Nat) (upper : Bool) (spec : Spec) : List Arg → State → Option (Mode × List Arg × State)
  | .word value :: args, handle =>
    (printnum func (getuint spec.lflag value) base upper spec.width spec.padc handle).map (fun handle =>
      (.text, args, handle))
  | _, _ => none

def convertSigned (spec : Spec) : List Arg → State → Option (Mode × List Arg × State)
  | .word value :: args, handle =>
    let num := getint spec.lflag value
    let handle := if num < 0 then func MINUS handle else handle
    (printnum func num.natAbs 10 false spec.width spec.padc handle).map (fun handle =>
      (.text, args, handle))
  | _, _ => none

def convertChar : List Arg → State → Option (Mode × List Arg × State)
  | .word value :: args, handle => some (.text, args, func (UInt8.ofNat value) handle)
  | _, _ => none

/-- `%s`; `null` is what is printed for `NULL`, if that is not an `ASSERT`. -/
def convertString (null : Option (List UInt8)) (spec : Spec) :
    List Arg → State → Option (Mode × List Arg × State)
  | .str none :: args, handle => null.map (fun chars => (.text, args, emit func chars handle))
  | .str (some chars) :: args, handle =>
    let spaces := (wrap32 (spec.width - chars.length)).toNat
    let handle := if spec.padc = SPACE then emit func (List.replicate spaces SPACE) handle else handle
    let handle := emit func chars handle
    let handle := if spec.padc = MINUS then emit func (List.replicate spaces SPACE) handle else handle
    some (.text, args, handle)
  | _, _ => none

def directive (null : Option (List UInt8)) (ch : UInt8) (spec : Spec) (args : List Arg) (handle : State) :
    Option (Mode × List Arg × State) :=
  if ch = MINUS then some (.again { spec with padc := MINUS }, args, handle)
  else if ch = ZERO then some (.again { spec with padc := ZERO }, args, handle)
  else if 49 ≤ ch ∧ ch ≤ 57 then some (.width { spec with width := ch.toNat - 48 }, args, handle)
  else if ch = 99 then convertChar func args handle
  else if ch = 115 then convertString func null spec args handle
  else if ch = 100 then convertSigned func spec args handle
  else if ch = 117 then convert func 10 false spec args handle
  else if ch = 111 then convert func 8 false spec args handle
  else if ch = 112 then convert func 8 false { spec with lflag := 8 } args handle
  else if ch = 120 then convert func 16 false spec args handle
  else if ch = 88 then convert func 16 true spec args handle
  else if ch = 108 then some (.again { spec with lflag := 8 }, args, handle)
  else some (.text, args, func ch handle)

def advance (null : Option (List UInt8)) (ch : UInt8) : Mode → List Arg → State →
    Option (Mode × List Arg × State)
  | .text, args, handle =>
    if ch = PERCENT then some (.again ⟨-1, 4, SPACE⟩, args, handle) else some (.text, args, func ch handle)
  | .again spec, args, handle => directive func null ch spec args handle
  | .width spec, args, handle =>
    if 48 ≤ ch ∧ ch ≤ 57 then
      some (.width { spec with width := wrap32 (10 * spec.width + ch.toNat - 48) }, args, handle)
    else directive func null ch spec args handle

def kvprintf (null : Option (List UInt8)) : List UInt8 → Mode → List Arg → State → Option State
  | [], .text, _, handle => some handle
  | [], _, _, _ => none
  | ch :: fmt, mode, args, handle =>
    (advance func null ch mode args handle).bind (fun (mode, args, handle) =>
      kvprintf null fmt mode args handle)

end

def nullText : List UInt8 := [42, 78, 85, 76, 76, 42]

/-- `kvprintf` of the C library and of the kernel. -/
def libcPrintf {State : Type} (func : UInt8 → State → State) (fmt : List UInt8) (args : List Arg)
    (handle : State) : Option State := kvprintf func (some nullText) fmt .text args handle

def kernPrintf {State : Type} (func : UInt8 → State → State) (fmt : List UInt8) (args : List Arg)
    (handle : State) : Option State := kvprintf func none fmt .text args handle

/-- The characters that a format produces. -/
def collect (ch : UInt8) (chars : List UInt8) : List UInt8 := chars ++ [ch]

section

variable {State : Type} {func : UInt8 → State → State} {null : Option (List UInt8)}

theorem emit_collect (chars done : List UInt8) : emit collect chars done = done ++ chars := by
  induction chars generalizing done with
  | nil => exact (append_nil done).symm
  | cons ch chars ih =>
    show emit collect chars (done ++ [ch]) = _
    rw [ih, append_assoc]
    rfl

theorem emit_append (front back : List UInt8) (handle : State) :
    emit func (front ++ back) handle = emit func back (emit func front handle) := foldl_append

end

/-! The calls of `func` do not depend on what it does. -/

section

variable {State Other : Type} {func : UInt8 → State → State} {func' : UInt8 → Other → Other}
  {view : State → Other} {null : Option (List UInt8)}

section

variable (follows : ∀ ch s, view (func ch s) = func' ch (view s))
include follows

theorem emit_natural (chars : List UInt8)
    (handle : State) : view (emit func chars handle) = emit func' chars (view handle) := by
  induction chars generalizing handle with
  | nil => rfl
  | cons ch chars ih =>
    show view (emit func chars (func ch handle)) = emit func' chars (func' ch (view handle))
    rw [ih, follows]

theorem printnum_natural (num base : Nat)
    (upper : Bool) (width : Int) (padc : UInt8) (handle : State) :
    printnum func' num base upper width padc (view handle) =
      (printnum func num base upper width padc handle).map view := by
  unfold printnum
  rw [Option.map_map]
  congr 1
  funext buf
  simp only [Function.comp_apply, apply_ite view, emit_natural follows]

end

def seen (view : State → Other) (next : Mode × List Arg × State) : Mode × List Arg × Other :=
  (next.1, next.2.1, view next.2.2)

section

variable (follows : ∀ ch s, view (func ch s) = func' ch (view s))
include follows

theorem convert_natural (base : Nat) (upper : Bool) (spec : Spec) (args : List Arg) (handle : State) :
    convert func' base upper spec args (view handle) =
      (convert func base upper spec args handle).map (seen view) := by
  unfold convert
  split
  · rw [printnum_natural follows, Option.map_map, Option.map_map]
    rfl
  · rfl

theorem convertSigned_natural (spec : Spec) (args : List Arg) (handle : State) :
    convertSigned func' spec args (view handle) = (convertSigned func spec args handle).map (seen view) := by
  unfold convertSigned
  split
  · simp only [← follows, ← apply_ite view]
    rw [printnum_natural follows, Option.map_map, Option.map_map]
    rfl
  · rfl

theorem convertChar_natural (args : List Arg)
    (handle : State) : convertChar func' args (view handle) = (convertChar func args handle).map (seen view) := by
  unfold convertChar
  split
  · rw [← follows]
    rfl
  · rfl

theorem convertString_natural (spec : Spec) (args : List Arg) (handle : State) :
    convertString func' null spec args (view handle) =
      (convertString func null spec args handle).map (seen view) := by
  unfold convertString
  split
  · rw [Option.map_map]
    congr 1
    funext chars
    simp only [Function.comp_apply, seen, emit_natural follows]
  · simp only [map_some, seen, apply_ite view, emit_natural follows]
  · rfl

theorem directive_natural (ch : UInt8) (spec : Spec) (args : List Arg) (handle : State) :
    directive func' null ch spec args (view handle) =
      (directive func null ch spec args handle).map (seen view) := by
  unfold directive
  simp only [convert_natural follows, convertSigned_natural follows, convertString_natural follows,
    convertChar_natural follows, apply_ite (Option.map (seen view)), map_some, seen, follows]

theorem advance_natural (ch : UInt8) (mode : Mode) (args : List Arg) (handle : State) :
    advance func' null ch mode args (view handle) =
      (advance func null ch mode args handle).map (seen view) := by
  cases mode with
  | text =>
    simp only [advance, apply_ite (Option.map (seen view)), map_some, seen, follows]
  | again spec => exact directive_natural follows ch spec args handle
  | width spec =>
    simp only [advance, apply_ite (Option.map (seen view)), map_some, seen,
      directive_natural follows]

theorem kvprintf_natural (fmt : List UInt8) :
    ∀ (mode : Mode) (args : List Arg) (handle : State),
      kvprintf func' null fmt mode args (view handle) = (kvprintf func null fmt mode args handle).map view := by
  induction fmt with
  | nil =>
    intro mode args handle
    cases mode <;> rfl
  | cons ch fmt ih =>
    intro mode args handle
    rw [kvprintf, kvprintf, advance_natural follows]
    cases advance func null ch mode args handle with
    | none => rfl
    | some next =>
      obtain ⟨mode, args, handle⟩ := next
      exact ih mode args handle

end

theorem kvprintf_emits (fmt : List UInt8) (args : List Arg) (handle : State) :
    kvprintf func null fmt .text args handle =
      (kvprintf collect null fmt .text args []).map (fun chars => emit func chars handle) := by
  have follows : ∀ ch chars, (fun chars => emit func chars handle) (collect ch chars) =
      func ch ((fun chars => emit func chars handle) chars) := by
    intro ch chars
    show emit func (chars ++ [ch]) handle = _
    rw [emit_append]
    rfl
  exact kvprintf_natural follows fmt .text args []

end

/-- The bytes of `str` that were written, and `cur - buf`. -/
structure StrState where
  str : Nat → Option UInt8
  cur : Nat

/-- `(size_t)-1`. -/
def NOLIMIT : Nat := 2 ^ 64 - 1

def StrState.put (state : StrState) (c : UInt8) : Nat → Option UInt8 :=
  Function.update state.str state.cur (some c)

def strputc (maxlen : Nat) (c : UInt8) (state : StrState) : StrState :=
  if maxlen ≠ NOLIMIT ∧ maxlen ≤ state.cur then { state with str := state.put 0 }
  else ⟨state.put c, state.cur + 1⟩

/-- `snprintf`, and `sprintf` with its `maxlen` of -1; the result is that of `kvprintf` and the string. -/
def snprintf (n : Nat) (fmt : List UInt8) (args : List Arg) : Option (Int × (Nat → Option UInt8)) :=
  (libcPrintf (strputc n) fmt args ⟨fun _ => none, 0⟩).map (fun state => (-1, state.put 0))

def sprintf (fmt : List UInt8) (args : List Arg) : Option (Int × (Nat → Option UInt8)) :=
  snprintf NOLIMIT fmt args

def IsString (str : Nat → Option UInt8) (chars : List UInt8) : Prop :=
  (∀ i < chars.length, str i = chars[i]?) ∧ str chars.length = some 0

/-- What `snprintf` should leave: nothing behind the bound, and before it the string as far as it fits. -/
def Bounded (n : Nat) (out : List UInt8) (str : Nat → Option UInt8) : Prop :=
  (∀ i, n ≤ i → str i = none) ∧ IsString str (out.take (n - 1))

section

variable {n : Nat}

theorem put_getElem (done : List UInt8) (c : UInt8) :
    StrState.put ⟨fun i => done[i]?, done.length⟩ c = fun i => (done ++ [c])[i]? := by
  funext i
  unfold StrState.put
  by_cases last : i = done.length
  · subst last
    rw [update_self, getElem?_append_right le_rfl, Nat.sub_self]
    rfl
  · rw [update_of_ne last]
    rcases lt_or_ge i done.length with before | after
    · rw [getElem?_append_left before]
    · show done[i]? = _
      rw [getElem?_eq_none after, getElem?_eq_none]
      rw [length_append, length_singleton]
      omega

theorem emit_strputc (chars : List UInt8) (fits : n = NOLIMIT ∨ chars.length ≤ n) :
    emit (strputc n) chars ⟨fun _ => none, 0⟩ = ⟨fun i => chars[i]?, chars.length⟩ := by
  induction chars using reverseRecOn with
  | nil => rfl
  | append_singleton done c ih =>
    rw [length_append, length_singleton] at fits
    rw [emit_append, ih (by omega)]
    have room : ¬ (n ≠ NOLIMIT ∧ n ≤ done.length) := by omega
    show strputc n c _ = _
    rw [strputc, if_neg room, put_getElem, length_append, length_singleton]

theorem emit_full (limit : n ≠ NOLIMIT) (chars : List UInt8) (state : StrState) (full : state.cur = n) :
    (emit (strputc n) chars state).cur = n := by
  induction chars generalizing state with
  | nil => exact full
  | cons c chars ih =>
    refine ih (strputc n c state) ?_
    rw [strputc, if_pos ⟨limit, le_of_eq full.symm⟩]
    exact full

theorem isString_put (chars : List UInt8) :
    IsString (StrState.put ⟨fun i => chars[i]?, chars.length⟩ 0) chars := by
  constructor
  · intro i less
    exact update_of_ne (ne_of_lt less) ..
  · exact update_self ..

theorem bounded_put (chars : List UInt8) (fits : chars.length < n) :
    Bounded n chars (StrState.put ⟨fun i => chars[i]?, chars.length⟩ 0) := by
  constructor
  · intro i outside
    have behind : chars.length < i := by omega
    exact (update_of_ne (ne_of_gt behind) ..).trans (getElem?_eq_none (le_of_lt behind))
  · rw [take_of_length_le (by omega)]
    exact isString_put chars

theorem emit_overruns (chars : List UInt8) (long : n ≤ chars.length) :
    ¬ Bounded n chars ((emit (strputc n) chars ⟨fun _ => none, 0⟩).put 0) := by
  intro bounded
  have place : n ≤ (emit (strputc n) chars ⟨fun _ => none, 0⟩).cur := by
    by_cases limit : n = NOLIMIT
    · rw [emit_strputc chars (.inl limit)]
      exact long
    · rw [← take_append_drop n chars, emit_append,
        emit_strputc (chars.take n) (.inr (by rw [length_take]; omega))]
      refine le_of_eq (emit_full limit _ _ ?_).symm
      show (chars.take n).length = n
      rw [length_take]
      omega
  have outside := bounded.1 _ place
  rw [show (emit (strputc n) chars ⟨fun _ => none, 0⟩).put 0 _ = some 0 from update_self ..] at outside
  cases outside

end

/-- `snprintf` keeps to its bound exactly when the output with its terminator fits; `sprintf` leaves all
of it. -/
theorem snprintf_bounded_iff (n : Nat) (fmt out : List UInt8) (args : List Arg)
    (produced : libcPrintf collect fmt args [] = some out) :
    ((∃ str, snprintf n fmt args = some (-1, str) ∧ Bounded n out str) ↔ out.length < n) ∧
      ∃ str, sprintf fmt args = some (-1, str) ∧ IsString str out := by
  have ran : ∀ n, snprintf n fmt args =
      some (-1, (emit (strputc n) out ⟨fun _ => none, 0⟩).put 0) := by
    intro n
    rw [snprintf, libcPrintf, kvprintf_emits, show kvprintf collect _ fmt .text args [] = _ from produced]
    rfl
  refine ⟨⟨?_, ?_⟩, ?_⟩
  · rintro ⟨str, printed, bounded⟩
    by_contra long
    obtain rfl : _ = str := congrArg Prod.snd (some.inj ((ran n).symm.trans printed))
    exact emit_overruns out (Nat.le_of_not_lt long) bounded
  · intro fits
    refine ⟨_, ran n, ?_⟩
    rw [emit_strputc out (.inr (by omega))]
    exact bounded_put out fits
  · refine ⟨_, ran NOLIMIT, ?_⟩
    rw [emit_strputc out (.inl rfl)]
    exact isString_put out

theorem snprintf_bounded_number : ∃ str, snprintf 4 [37, 100] [.word 42] = some (-1, str) ∧
    Bounded 4 [52, 50] str :=
  (snprintf_bounded_iff 4 [37, 100] [52, 50] [.word 42] (by decide)).1.mpr (by decide)

/-- `snprintf(str, 2, "ab")` writes `str[2]` and leaves no terminator before it. -/
theorem snprintf_overruns : libcPrintf collect [97, 98] [] [] = some [97, 98] ∧
    ∃ str, snprintf 2 [97, 98] [] = some (-1, str) ∧ str 0 = some 97 ∧ str 1 = some 98 ∧ str 2 = some 0 :=
  ⟨by decide, _, rfl, rfl, rfl, rfl⟩

end BoringOs.Printf
