import BoringOs.PrintfNumbers

/-! How `kvprintf` reads a format that lies in memory: literal text and conversions, up to the
terminator. -/

namespace BoringOs.Printf

open List Option

section

variable {State : Type} (func : UInt8 → State → State) (null : Option (List UInt8))

/-- `kvprintf` on the bytes from `fmt` on; what it has not read is returned. The terminator is looked
for in text only. -/
def kvprintfBytes : List UInt8 → Mode → List Arg → State → Option (List UInt8 × State)
  | [], _, _, _ => none
  | ch :: bytes, mode, args, handle =>
    match mode, ch with
    | .text, 0 => some (bytes, handle)
    | mode, ch => (advance func null ch mode args handle).bind (fun (mode, args, handle) =>
        kvprintfBytes bytes mode args handle)

end

/-- A flag, a digit of the width or the length modifier. -/
def modifier (ch : UInt8) : Prop := ch = MINUS ∨ 48 ≤ ch ∧ ch ≤ 57 ∨ ch = 108

instance (ch : UInt8) : Decidable (modifier ch) := inferInstanceAs (Decidable (_ ∨ _))

inductive Piece where
  | text (ch : UInt8)
  | conversion (modifiers : List UInt8) (ch : UInt8)

/-- The pieces of a format, and the modifiers read so far if it ends inside a conversion. -/
def pieces : List UInt8 → Option (List UInt8) → List Piece × Option (List UInt8)
  | [], inside => ([], inside)
  | ch :: fmt, none =>
    if ch = PERCENT then pieces fmt (some []) else ((pieces fmt none).map (.text ch :: ·) id)
  | ch :: fmt, some modifiers =>
    if modifier ch then pieces fmt (some (modifiers ++ [ch]))
    else (pieces fmt none).map (.conversion modifiers ch :: ·) id

/-- What a conversion takes. -/
inductive Takes where
  | nothing
  | word
  | str

def takes (ch : UInt8) : Takes :=
  if ch = 115 then .str else if ch ∈ [99, 100, 117, 111, 112, 120, 88] then .word else .nothing

/-- The arguments that a conversion leaves. -/
def leaves (ch : UInt8) (args : List Arg) : List Arg :=
  match takes ch with
  | .nothing => args
  | _ => args.tail

/-- The argument is there and of the right kind. -/
def Supplied (null : Option (List UInt8)) (ch : UInt8) (args : List Arg) : Prop :=
  match takes ch with
  | .nothing => True
  | .word => ∃ value more, args = .word value :: more
  | .str => ∃ chars more, args = .str chars :: more ∧ (chars.isSome ∨ null.isSome)

def Enough (null : Option (List UInt8)) : List Piece → List Arg → Prop
  | [], _ => True
  | .text _ :: more, args => Enough null more args
  | .conversion _ ch :: more, args => Supplied null ch args ∧ Enough null more (leaves ch args)

/-- The literal text and the conversions in order, each of these as it is printed alone. -/
def printed (null : Option (List UInt8)) : List Piece → List Arg → List UInt8
  | [], _ => []
  | .text ch :: more, args => ch :: printed null more args
  | .conversion modifiers ch :: more, args =>
    (kvprintf collect null (PERCENT :: (modifiers ++ [ch])) .text args []).getD [] ++
      printed null more (leaves ch args)

section

variable {State : Type} {func : UInt8 → State → State} {null : Option (List UInt8)} {mode : Mode}
  {args : List Arg} {handle out : State} {ch : UInt8}

theorem kvprintfBytes_rest {bytes rest : List UInt8}
    (ran : kvprintfBytes func null bytes mode args handle = some (rest, out)) :
    rest.length < bytes.length := by
  induction bytes generalizing mode args handle with
  | nil => cases ran
  | cons ch bytes ih =>
    unfold kvprintfBytes at ran
    split at ran
    · cases ran
      exact Nat.lt_succ_self _
    · obtain ⟨next, _, ran⟩ := bind_eq_some_iff.mp ran
      exact Nat.lt_succ_of_lt (ih ran)

theorem printnum_some {base num : Nat} (upper : Bool) (low : 8 ≤ base) (small : num < 2 ^ 64) (width : Int)
    (padc : UInt8) (handle : State) : ∃ out, printnum func num base upper width padc handle = some out := by
  have fits : num < base ^ 64 := small.trans_le (Nat.pow_le_pow_left (by omega) 64)
  rw [printnum, digitsLoop_eq (by omega) 63 num fits]
  exact ⟨_, rfl⟩

theorem convert_some {base : Nat} (upper : Bool) (low : 8 ≤ base) (spec : Spec) (value : Nat) (handle : State) :
    ∃ out, convert func base upper spec (.word value :: args) handle = some (.text, args, out) := by
  obtain ⟨out, done⟩ := @printnum_some _ func _ _ upper low (getuint_lt spec.lflag value) spec.width spec.padc
    handle
  exact ⟨out, by rw [convert, done]; rfl⟩

theorem convertSigned_some (spec : Spec) (value : Nat) (handle : State) :
    ∃ out, convertSigned func spec (.word value :: args) handle = some (.text, args, out) := by
  obtain ⟨out, done⟩ := @printnum_some _ func 10 _ false (by decide) (getint_lt spec.lflag value) spec.width
    spec.padc (if getint spec.lflag value < 0 then func MINUS handle else handle)
  exact ⟨out, by rw [convertSigned, done]; rfl⟩

/-- A modifier leads on inside the conversion. -/
theorem advance_modifier (null : Option (List UInt8)) (inside : mode ≠ .text) (mod : modifier ch) :
    ∃ next : Mode, next ≠ .text ∧ ∀ {State : Type} (func : UInt8 → State → State) (args : List Arg)
      (handle : State), advance func null ch mode args handle = some (next, args, handle) := by
  have again : ∀ spec, ¬ (48 ≤ ch ∧ ch ≤ 57) ∨ 49 ≤ ch ∧ ch ≤ 57 ∨ ch = 48 → ∃ next : Mode, next ≠ .text ∧
      ∀ {State : Type} (func : UInt8 → State → State) (args : List Arg) (handle : State),
        directive func null ch spec args handle = some (next, args, handle) := by
    rintro spec (letter | digit | rfl)
    · rcases mod with rfl | digit | rfl
      · exact ⟨.again { spec with padc := MINUS }, by simp, fun _ _ _ => rfl⟩
      · exact absurd digit letter
      · exact ⟨.again { spec with lflag := 8 }, by simp, fun _ _ _ => rfl⟩
    · have apart : ch ≠ MINUS ∧ ch ≠ ZERO := by
        constructor
        · rintro rfl
          exact absurd digit.1 (by decide)
        · rintro rfl
          exact absurd digit.1 (by decide)
      refine ⟨.width { spec with width := ch.toNat - 48 }, by simp, fun _ _ _ => ?_⟩
      rw [directive, if_neg apart.1, if_neg apart.2, if_pos digit]
    · exact ⟨.again { spec with padc := ZERO }, by simp, fun _ _ _ => rfl⟩
  have cases : ¬ (48 ≤ ch ∧ ch ≤ 57) ∨ 49 ≤ ch ∧ ch ≤ 57 ∨ ch = 48 := by
    simp only [UInt8.le_iff_toNat_le, ← UInt8.toNat_inj]
    show ¬ (48 ≤ ch.toNat ∧ ch.toNat ≤ 57) ∨ 49 ≤ ch.toNat ∧ ch.toNat ≤ 57 ∨ ch.toNat = 48
    omega
  cases mode with
  | text => exact absurd rfl inside
  | again spec => exact again spec cases
  | width spec =>
    by_cases digit : 48 ≤ ch ∧ ch ≤ 57
    · refine ⟨.width { spec with width := wrap32 (10 * spec.width + ch.toNat - 48) }, by simp, fun _ _ _ => ?_⟩
      rw [advance, if_pos digit]
    · obtain ⟨next, stays, same⟩ := again spec cases
      refine ⟨next, stays, fun func args handle => ?_⟩
      rw [advance, if_neg digit, same]

/-- Another character ends the conversion and takes its argument. -/
theorem directive_ends (other : ¬ modifier ch) (spec : Spec) (supplied : Supplied null ch args)
    (handle : State) : ∃ out, directive func null ch spec args handle = some (.text, leaves ch args, out) := by
  have apart : ch ≠ MINUS ∧ ch ≠ ZERO ∧ ¬ (49 ≤ ch ∧ ch ≤ 57) ∧ ch ≠ 108 := by
    refine ⟨fun same => other (.inl same), fun same => other (.inr (.inl (same ▸ by decide))),
      fun digit => other (.inr (.inl ⟨?_, digit.2⟩)), fun same => other (.inr (.inr same))⟩
    exact UInt8.le_trans (by decide) digit.1
  rw [directive, if_neg apart.1, if_neg apart.2.1, if_neg apart.2.2.1]
  by_cases str : ch = 115
  · subst str
    obtain ⟨chars, more, rfl, known⟩ := supplied
    cases chars with
    | none =>
      obtain ⟨text, rfl⟩ := isSome_iff_exists.mp (known.resolve_left (by simp))
      exact ⟨_, rfl⟩
    | some chars => exact ⟨_, rfl⟩
  · by_cases word : ch ∈ [99, 100, 117, 111, 112, 120, 88]
    · have kind : takes ch = .word := by rw [takes, if_neg str, if_pos word]
      obtain ⟨value, more, rfl⟩ : ∃ value more, args = .word value :: more := by
        simpa only [Supplied, kind] using supplied
      have left : leaves ch (.word value :: more) = more := by simp only [leaves, kind, tail_cons]
      rw [left]
      simp only [mem_cons, not_mem_nil, or_false] at word
      rcases word with rfl | rfl | rfl | rfl | rfl | rfl | rfl
      · exact ⟨_, rfl⟩
      · exact convertSigned_some spec value handle
      · exact convert_some false (by decide) spec value handle
      · exact convert_some false (by decide) spec value handle
      · exact convert_some false (by decide) { spec with lflag := 8 } value handle
      · exact convert_some false (by decide) spec value handle
      · exact convert_some true (by decide) spec value handle
    · have left : leaves ch args = args := by simp only [leaves, takes, if_neg str, if_neg word]
      simp only [mem_cons, not_mem_nil, or_false, not_or] at word
      simp only [word, str, apart, if_false, left]
      exact ⟨_, rfl⟩

theorem advance_ends (inside : mode ≠ .text) (other : ¬ modifier ch) (supplied : Supplied null ch args)
    (handle : State) : ∃ out, advance func null ch mode args handle = some (.text, leaves ch args, out) := by
  cases mode with
  | text => exact absurd rfl inside
  | again spec => exact directive_ends other spec supplied handle
  | width spec =>
    rw [advance, if_neg fun digit => other (.inr (.inl digit))]
    exact directive_ends other spec supplied handle

end

/-- Where `kvprintf` is after the start of a conversion. -/
def Reached (null : Option (List UInt8)) : Option (List UInt8) → Mode → Prop
  | none, mode => mode = .text
  | some modifiers, mode => mode ≠ .text ∧ ∀ fmt args,
    kvprintf collect null (PERCENT :: (modifiers ++ fmt)) .text args [] = kvprintf collect null fmt mode args []

section

variable {State : Type} {func : UInt8 → State → State} {null : Option (List UInt8)}

/-- The handle follows the characters that are collected. -/
theorem advance_emits (ch : UInt8) (mode : Mode) (args : List Arg) (handle : State) :
    advance func null ch mode args handle =
      (advance collect null ch mode args []).map (seen fun chars => emit func chars handle) := by
  have follows : ∀ ch chars, emit func (collect ch chars) handle = func ch (emit func chars handle) := by
    intro ch chars
    rw [collect, emit_append]
    rfl
  exact @advance_natural _ _ collect func (fun chars => emit func chars handle) null follows ch mode args []

theorem kvprintfBytes_pieces {fmt : List UInt8} (clean : 0 ∉ fmt) (beyond : List UInt8)
    {inside : Option (List UInt8)} {mode : Mode} (reached : Reached null inside mode) {args : List Arg}
    (enough : Enough null (pieces fmt inside).1 args) (handle : State) :
    kvprintfBytes func null (fmt ++ 0 :: beyond) mode args handle =
        some (beyond, emit func (printed null (pieces fmt inside).1 args) handle) ↔
      (pieces fmt inside).2 = none := by
  induction fmt generalizing inside mode args handle with
  | nil =>
    cases inside with
    | none =>
      cases reached
      exact iff_of_true rfl rfl
    | some modifiers =>
      refine iff_of_false (fun ran => ?_) nofun
      cases mode with
      | text => exact absurd rfl reached.1
      | _ =>
        -- the terminator is printed, and reading goes on behind it
        simp only [nil_append, kvprintfBytes] at ran
        obtain ⟨next, _, ran⟩ := bind_eq_some_iff.mp ran
        exact absurd (kvprintfBytes_rest ran) (lt_irrefl _)
  | cons ch fmt ih =>
    rw [mem_cons, not_or] at clean
    have read : kvprintfBytes func null (ch :: fmt ++ 0 :: beyond) mode args handle =
        (advance func null ch mode args handle).bind fun next =>
          kvprintfBytes func null (fmt ++ 0 :: beyond) next.1 next.2.1 next.2.2 := by
      rw [cons_append, kvprintfBytes]
      exact fun _ zero => clean.1 zero.symm
    rw [read]
    cases inside with
    | none =>
      cases reached
      by_cases percent : ch = PERCENT
      · subst percent
        have first : pieces (PERCENT :: fmt) none = pieces fmt (some []) := if_pos rfl
        rw [first] at enough ⊢
        exact @ih clean.2 (some []) (.again ⟨-1, 4, SPACE⟩) ⟨nofun, fun _ _ => rfl⟩ _ enough handle
      · rw [pieces, if_neg percent] at enough ⊢
        rw [advance, if_neg percent]
        exact @ih clean.2 none .text rfl _ enough (func ch handle)
    | some modifiers =>
      by_cases mod : modifier ch
      · obtain ⟨next, stays, same⟩ := advance_modifier null reached.1 mod
        rw [pieces, if_pos mod] at enough ⊢
        rw [same]
        refine @ih clean.2 (some (modifiers ++ [ch])) next ⟨stays, fun rest args => ?_⟩ _ enough handle
        rw [append_assoc, reached.2, singleton_append, kvprintf, same]
        rfl
      · rw [pieces, if_neg mod] at enough ⊢
        obtain ⟨supplied, enough⟩ := enough
        obtain ⟨chars, ends⟩ := @advance_ends _ collect _ _ _ _ reached.1 mod supplied []
        have alone : kvprintf collect null (PERCENT :: (modifiers ++ [ch])) .text args [] = some chars := by
          rw [reached.2, kvprintf, ends]
          rfl
        have text : printed null (.conversion modifiers ch :: (pieces fmt none).1) args =
            chars ++ printed null (pieces fmt none).1 (leaves ch args) := by
          rw [printed, alone]
          rfl
        rw [advance_emits, ends]
        show _ = some (beyond, emit func (printed null (.conversion modifiers ch :: (pieces fmt none).1) args)
          handle) ↔ _
        rw [text, emit_append]
        exact @ih clean.2 none .text rfl _ enough (emit func chars handle)

/-- With enough arguments, `kvprintf` returns without a look beyond the terminator, with the text and
the conversions printed in order, exactly if the format does not end inside a conversion. -/
theorem kvprintf_stays_inside_iff {fmt : List UInt8} (beyond : List UInt8) {args : List Arg}
    (clean : 0 ∉ fmt) (enough : Enough null (pieces fmt none).1 args) (handle : State) :
    kvprintfBytes func null (fmt ++ 0 :: beyond) .text args handle =
        some (beyond, emit func (printed null (pieces fmt none).1 args) handle) ↔
      (pieces fmt none).2 = none :=
  @kvprintfBytes_pieces _ _ _ _ clean beyond none .text rfl _ enough handle

end

/-- `"a%-5lc!"` with the character `b`. -/
theorem kvprintf_stays_inside_char :
    kvprintfBytes collect none ([97, 37, 45, 53, 108, 99, 33] ++ 0 :: [65]) .text [.word 98] [] =
      some ([65], [97, 98, 33]) :=
  (@kvprintf_stays_inside_iff _ collect none [97, 37, 45, 53, 108, 99, 33] [65] [.word 98] (by decide)
    ⟨⟨98, [], rfl⟩, trivial⟩ []).mpr rfl

/-- `"%"` prints the terminator and goes on with the text that lies behind it. -/
theorem kvprintf_runs_past : Enough none (pieces [37] none).1 [] ∧
    kvprintfBytes collect none ([37] ++ 0 :: [65, 0]) .text [] [] = some ([], [0, 65]) :=
  ⟨trivial, rfl⟩

end BoringOs.Printf
