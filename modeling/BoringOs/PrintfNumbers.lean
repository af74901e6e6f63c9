import BoringOs.Printf

/-! The conversions of numbers by `kvprintf`, beside the usual rendering. -/

namespace BoringOs.Printf

open List Option Nat

inductive Flag where
  | plain
  | minus
  | zero

inductive Kind where
  | d
  | u
  | o
  | x
  | upperX

/-- A conversion `%[-|0][width][l](d|u|o|x|X)`. -/
structure Conversion where
  flag : Flag
  width : Option Nat
  long : Bool
  kind : Kind

def Flag.chars : Flag → List UInt8
  | .plain => []
  | .minus => [MINUS]
  | .zero => [ZERO]

def Flag.padc : Flag → UInt8
  | .plain => SPACE
  | .minus => MINUS
  | .zero => ZERO

def Kind.char : Kind → UInt8
  | .d => 100
  | .u => 117
  | .o => 111
  | .x => 120
  | .upperX => 88

def Kind.base : Kind → Nat
  | .d => 10
  | .u => 10
  | .o => 8
  | .x => 16
  | .upperX => 16

def Kind.upper : Kind → Bool
  | .upperX => true
  | _ => false

def numeral (upper : Bool) (base num : Nat) : List UInt8 :=
  (if num = 0 then [0] else (Nat.digits base num).reverse).map (numberstring upper)

def digitValue (c : UInt8) : Nat :=
  if c ≤ 57 then c.toNat - 48 else if 97 ≤ c then c.toNat - 87 else c.toNat - 55

def readNumeral (base : Nat) (chars : List UInt8) : Nat :=
  chars.foldl (fun value c => base * value + digitValue c) 0

def Conversion.text (conv : Conversion) : List UInt8 :=
  PERCENT :: (conv.flag.chars ++ (conv.width.elim [] (numeral false 10) ++
    ((if conv.long then [108] else []) ++ [conv.kind.char])))

def Conversion.lflag (conv : Conversion) : Nat := if conv.long then 8 else 4

/-- The argument as the conversion takes it. -/
def Conversion.value (conv : Conversion) (word : Nat) : Int :=
  match conv.kind with
  | .d => getint conv.lflag word
  | _ => getuint conv.lflag word

def Conversion.digits (conv : Conversion) (word : Nat) : List UInt8 :=
  numeral conv.kind.upper conv.kind.base (conv.value word).natAbs

def Conversion.sign (conv : Conversion) (word : Nat) : List UInt8 :=
  if conv.value word < 0 then [MINUS] else []

def Conversion.render (conv : Conversion) (word : Nat) : List UInt8 :=
  let sign := conv.sign word
  let digits := conv.digits word
  let pad := conv.width.getD 0 - (sign.length + digits.length)
  match conv.flag with
  | .plain => List.replicate pad SPACE ++ (sign ++ digits)
  | .minus => sign ++ digits ++ List.replicate pad SPACE
  | .zero => sign ++ (List.replicate pad ZERO ++ digits)

def padded (digits : List UInt8) (width : Nat) (flag : Flag) : List UInt8 :=
  match flag with
  | .plain => List.replicate (width - digits.length) SPACE ++ digits
  | .minus => digits ++ List.replicate (width - digits.length) SPACE
  | .zero => List.replicate (width - digits.length) ZERO ++ digits

section

variable {upper : Bool} {base num : Nat}

theorem digitValue_numberstring (upper : Bool) : ∀ digit < 16, digitValue (numberstring upper digit) = digit := by
  cases upper <;> decide

theorem numeral_small (small : num < base) : numeral upper base num = [numberstring upper num] := by
  unfold numeral
  by_cases zero : num = 0
  · rw [if_pos zero, zero]
    rfl
  · rw [if_neg zero, digits_of_lt base num zero small]
    rfl

theorem numeral_large (base_ : 1 < base) (large : base ≤ num) :
    numeral upper base num = numeral upper base (num / base) ++ [numberstring upper (num % base)] := by
  have positive : num / base ≠ 0 := Nat.pos_iff_ne_zero.mp (Nat.div_pos large (by omega))
  unfold numeral
  rw [if_neg (by omega), if_neg positive, digits_def' base_ (by omega), reverse_cons, map_append]
  rfl

theorem readNumeral_snoc (chars : List UInt8) (c : UInt8) :
    readNumeral base (chars ++ [c]) = base * readNumeral base chars + digitValue c := by
  unfold readNumeral
  rw [foldl_append]
  rfl

theorem readNumeral_numeral (low : 1 < base) (high : base ≤ 16) (num : Nat) :
    readNumeral base (numeral upper base num) = num := by
  induction num using Nat.strong_induction_on with
  | _ num ih =>
    rcases lt_or_ge num base with small | large
    · rw [numeral_small small]
      show base * 0 + digitValue (numberstring upper num) = num
      rw [digitValue_numberstring upper num (by omega)]
      omega
    · have rest := mod_lt num (show 0 < base by omega)
      rw [numeral_large low large, readNumeral_snoc, ih _ (Nat.div_lt_self (by omega) low),
        digitValue_numberstring upper _ (by omega)]
      exact div_add_mod num base

theorem numeral_head (low : 1 < base) (high : base ≤ 16) (num : Nat)
    (zeros : (numeral upper base num).head? = some ZERO) : num = 0 := by
  induction num using Nat.strong_induction_on with
  | _ num ih =>
    rcases lt_or_ge num base with small | large
    · rw [numeral_small small, head?_cons] at zeros
      have value := digitValue_numberstring upper num (by omega)
      rw [some.inj zeros] at value
      exact value.symm
    · have fewer := Nat.div_lt_self (show 0 < num by omega) low
      have positive := Nat.div_pos large (show 0 < base by omega)
      rw [numeral_large low large, head?_append] at zeros
      cases first : (numeral upper base (num / base)).head? with
      | none =>
        exfalso
        rw [head?_eq_none_iff, numeral, map_eq_nil_iff, if_neg (by omega),
          reverse_eq_nil_iff, digits_eq_nil_iff_eq_zero] at first
        omega
      | some c =>
        rw [first] at zeros
        have none := ih _ fewer (first.trans zeros)
        omega

theorem digitsLoop_eq (low : 1 < base) (room : Nat) : ∀ num < base ^ (room + 1),
    digitsLoop upper base (room + 1) num = some (numeral upper base num).reverse := by
  induction room with
  | zero =>
    intro num small
    rw [zero_add, pow_one] at small
    rw [digitsLoop, if_pos (div_eq_of_lt small), mod_eq_of_lt small, numeral_small small]
    rfl
  | succ room ih =>
    intro num small
    unfold digitsLoop
    rcases lt_or_ge num base with one | more
    · rw [if_pos (div_eq_of_lt one), mod_eq_of_lt one, numeral_small one]
      rfl
    · have positive := Nat.div_pos more (show 0 < base by omega)
      have fewer : num / base < base ^ (room + 1) := by
        rw [Nat.div_lt_iff_lt_mul (by omega)]
        exact small
      rw [if_neg (by omega), ih _ fewer, numeral_large low more, reverse_append]
      rfl

end

section

variable {null : Option (List UInt8)} {spec : Spec} {rest : List UInt8} {args : List Arg}

theorem printnum_collects {base num : Nat} (upper : Bool) (low : 8 ≤ base) (small : num < 2 ^ 64)
    (width : Int) (flag : Flag) (done : List UInt8) :
    printnum collect num base upper width flag.padc done =
      some (done ++ padded (numeral upper base num) width.toNat flag) := by
  have fits : num < base ^ (63 + 1) :=
    lt_of_lt_of_le small ((by decide : 2 ^ 64 ≤ 8 ^ 64).trans (Nat.pow_le_pow_left low 64))
  have spaces : ∀ count : Nat, (width - count).toNat = width.toNat - count := by omega
  rw [printnum, digitsLoop_eq (by omega) 63 num fits, map_some]
  simp only [length_reverse, reverse_reverse, spaces, emit_collect]
  cases flag with
  | plain =>
    rw [if_neg (show Flag.plain.padc ≠ MINUS by decide),
      if_pos (show Flag.plain.padc = SPACE ∨ Flag.plain.padc = ZERO by decide), append_assoc]
    rfl
  | minus =>
    rw [if_pos (show Flag.minus.padc = MINUS from rfl),
      if_neg (show ¬ (Flag.minus.padc = SPACE ∨ Flag.minus.padc = ZERO) by decide), append_assoc]
    rfl
  | zero =>
    rw [if_neg (show Flag.zero.padc ≠ MINUS by decide),
      if_pos (show Flag.zero.padc = SPACE ∨ Flag.zero.padc = ZERO by decide), append_assoc]
    rfl

theorem getuint_lt (lflag word : Nat) : getuint lflag word < 2 ^ 64 := by
  unfold getuint
  split
  · exact mod_lt _ (by decide)
  · exact lt_trans (mod_lt _ (by decide)) (by decide)

theorem getint_lt (lflag word : Nat) : (getint lflag word).natAbs < 2 ^ 64 := by
  unfold getint
  split
  · have low := BitVec.le_toInt (BitVec.ofNat 64 word)
    have high := BitVec.toInt_lt (x := BitVec.ofNat 64 word)
    omega
  · have low := BitVec.le_toInt (BitVec.ofNat 32 word)
    have high := BitVec.toInt_lt (x := BitVec.ofNat 32 word)
    omega

def Ready (spec : Spec) (mode : Mode) : Prop := mode = .again spec ∨ mode = .width spec

theorem Ready.advance {mode : Mode} (ready : Ready spec mode) {ch : UInt8} (letter : 57 < ch)
    (done : List UInt8) : advance collect null ch mode args done = directive collect null ch spec args done := by
  rcases ready with rfl | rfl
  · rfl
  · rw [Printf.advance, if_neg (fun digit => absurd digit.2 (UInt8.not_le.mpr letter))]

theorem kvprintf_cons {ch : UInt8} {mode next : Mode} {left : List Arg} {done more : List UInt8}
    (moved : advance collect null ch mode args done = some (next, left, more)) :
    kvprintf collect null (ch :: rest) mode args done = kvprintf collect null rest next left more := by
  rw [kvprintf, moved]
  rfl

theorem kvprintf_flag (flag : Flag) (done : List UInt8) :
    kvprintf collect null (flag.chars ++ rest) (.again ⟨-1, 4, SPACE⟩) args done =
      kvprintf collect null rest (.again ⟨-1, 4, flag.padc⟩) args done := by
  cases flag with
  | plain => rfl
  | minus => exact kvprintf_cons rfl
  | zero => exact kvprintf_cons rfl

theorem numberstring_code : ∀ digit < 10, 48 ≤ numberstring false digit ∧ numberstring false digit ≤ 57 ∧
    (numberstring false digit).toNat = 48 + digit ∧ numberstring false digit ≠ MINUS ∧
    (digit ≠ 0 → numberstring false digit ≠ ZERO ∧ 49 ≤ numberstring false digit) := by decide

theorem kvprintf_width (width : Nat) : ∀ rest : List UInt8, 1 ≤ width → width < 2 ^ 31 → ∀ done : List UInt8,
    kvprintf collect null (numeral false 10 width ++ rest) (.again spec) args done =
      kvprintf collect null rest (.width { spec with width := width }) args done := by
  induction width using Nat.strong_induction_on with
  | _ width ih =>
    intro rest positive small done
    rcases lt_or_ge width 10 with one | more
    · obtain ⟨_, last, code, noMinus, first⟩ := numberstring_code width one
      obtain ⟨noZero, low⟩ := first (by omega)
      rw [numeral_small one]
      refine kvprintf_cons ?_
      rw [advance, directive, if_neg noMinus, if_neg noZero, if_pos ⟨low, last⟩, code]
      congr 4
      omega
    · have digit := mod_lt width (show 0 < 10 by decide)
      obtain ⟨low, last, code, _, _⟩ := numberstring_code (width % 10) digit
      rw [numeral_large (by decide) more, append_assoc, ih _ (by omega) _ (by omega) (by omega)]
      refine kvprintf_cons ?_
      rw [advance, if_pos ⟨low, last⟩, code]
      congr 4
      show wrap32 (10 * ((width / 10 : Nat) : Int) + ((48 + width % 10 : Nat) : Int) - 48) = (width : Int)
      unfold wrap32
      omega

theorem kvprintf_kind (conv : Conversion) (width : Int) (word : Nat) {mode : Mode}
    (ready : Ready ⟨width, 4, conv.flag.padc⟩ mode) :
    kvprintf collect null ((if conv.long then [108] else []) ++ [conv.kind.char]) mode [.word word] [] =
      some (conv.sign word ++ padded (conv.digits word) width.toNat conv.flag) := by
  have final : ∀ mode, Ready ⟨width, conv.lflag, conv.flag.padc⟩ mode →
      kvprintf collect null [conv.kind.char] mode [.word word] [] =
        some (conv.sign word ++ padded (conv.digits word) width.toNat conv.flag) := by
    intro mode ready
    have unsigned := getuint_lt conv.lflag word
    have signed := getint_lt conv.lflag word
    have unsignedCase : ∀ {base : Nat} (upper : Bool), 8 ≤ base →
        (convert collect base upper ⟨width, conv.lflag, conv.flag.padc⟩ [.word word] []).bind
          (fun next => kvprintf collect null [] next.1 next.2.1 next.2.2) =
        some ((if (getuint conv.lflag word : Int) < 0 then [MINUS] else []) ++
          padded (numeral upper base (getuint conv.lflag word : Int).natAbs) width.toNat conv.flag) := by
      intro base upper low
      have natural : ¬ ((getuint conv.lflag word : Int) < 0) := by omega
      rw [convert, printnum_collects upper low unsigned, if_neg natural, Int.natAbs_natCast]
      rfl
    rw [kvprintf, ready.advance (by cases conv.kind <;> decide)]
    unfold Conversion.sign Conversion.digits Conversion.value
    cases conv.kind with
    | d =>
      show ((convertSigned collect _ [.word word] []).bind _) = _
      simp only [convertSigned, printnum_collects false (show 8 ≤ 10 by decide) signed, map_some,
        bind_some, kvprintf]
      by_cases negative : getint conv.lflag word < 0
      · rw [if_pos negative, if_pos negative]
        rfl
      · rw [if_neg negative, if_neg negative]
        rfl
    | u => exact unsignedCase false (show 8 ≤ 10 by decide)
    | o => exact unsignedCase false (show 8 ≤ 8 by decide)
    | x => exact unsignedCase false (show 8 ≤ 16 by decide)
    | upperX => exact unsignedCase true (show 8 ≤ 16 by decide)
  unfold Conversion.lflag at final
  by_cases long : conv.long = true
  · rw [if_pos long]
    have moved : advance collect null 108 mode [.word word] [] =
        some (.again ⟨width, 8, conv.flag.padc⟩, [.word word], []) := ready.advance (by decide) []
    rw [if_pos long] at final
    exact (kvprintf_cons moved).trans (final _ (.inl rfl))
  · rw [if_neg long] at final ⊢
    exact final mode ready

theorem kvprintf_conversion (conv : Conversion) (word : Nat)
    (fits : ∀ width ∈ conv.width, 1 ≤ width ∧ width < 2 ^ 31) :
    kvprintf collect null conv.text .text [.word word] [] =
      some (conv.sign word ++ padded (conv.digits word) (conv.width.getD 0) conv.flag) := by
  have started : advance collect null PERCENT .text [.word word] [] =
      some (.again ⟨-1, 4, SPACE⟩, [.word word], []) := rfl
  rw [Conversion.text, kvprintf_cons started, kvprintf_flag]
  cases found : conv.width with
  | none => exact kvprintf_kind conv (-1) word (.inl rfl)
  | some width =>
    obtain ⟨positive, small⟩ := fits width found
    rw [Option.elim_some, kvprintf_width width _ positive small]
    exact kvprintf_kind conv width word (.inr rfl)

end

theorem padded_length (digits : List UInt8) (width : Nat) (flag : Flag) :
    (padded digits width flag).length = max width digits.length := by
  unfold padded
  cases flag with
  | plain =>
    rw [length_append, length_replicate]
    omega
  | minus =>
    rw [length_append, length_replicate]
    omega
  | zero =>
    rw [length_append, length_replicate]
    omega

theorem render_length (conv : Conversion) (word : Nat) : (conv.render word).length =
    max (conv.width.getD 0) ((conv.sign word).length + (conv.digits word).length) := by
  unfold Conversion.render
  cases conv.flag with
  | plain =>
    simp only [length_append, length_replicate]
    omega
  | minus =>
    simp only [length_append, length_replicate]
    omega
  | zero =>
    simp only [length_append, length_replicate]
    omega

theorem render_eq_iff (conv : Conversion) (word : Nat) :
    conv.sign word ++ padded (conv.digits word) (conv.width.getD 0) conv.flag = conv.render word ↔
      ¬ (conv.value word < 0 ∧ (conv.digits word).length < conv.width.getD 0) := by
  constructor
  · rintro same ⟨negative, wide⟩
    have lengths := congrArg length same
    have sign : (conv.sign word).length = 1 := by rw [Conversion.sign, if_pos negative]; rfl
    rw [length_append, padded_length, render_length, sign] at lengths
    omega
  · intro fine
    by_cases negative : conv.value word < 0
    · have narrow : ¬ (conv.digits word).length < conv.width.getD 0 := fun wide => fine ⟨negative, wide⟩
      have none : conv.width.getD 0 - (conv.digits word).length = 0 := by omega
      have none' : conv.width.getD 0 - ((conv.sign word).length + (conv.digits word).length) = 0 := by omega
      unfold Conversion.render padded
      simp only [none, none']
      cases conv.flag <;> simp
    · have sign : conv.sign word = [] := if_neg negative
      unfold Conversion.render padded
      simp only [sign, length_nil, zero_add, nil_append]

/-- Both versions of `kvprintf` give the usual rendering of a number exactly when it is not a negative
number in a field wider than its digits; the digits are read back as the number and begin with a zero only
for zero. -/
theorem kvprintf_numbers_iff (conv : Conversion) (word : Nat)
    (fits : ∀ width ∈ conv.width, 1 ≤ width ∧ width < 2 ^ 31) :
    (libcPrintf collect conv.text [.word word] [] = some (conv.render word) ∧
        kernPrintf collect conv.text [.word word] [] = some (conv.render word) ↔
      ¬ (conv.value word < 0 ∧ (conv.digits word).length < conv.width.getD 0)) ∧
    readNumeral conv.kind.base (conv.digits word) = (conv.value word).natAbs ∧
    ((conv.digits word).head? = some ZERO → conv.value word = 0) := by
  have bases : 1 < conv.kind.base ∧ conv.kind.base ≤ 16 := by cases conv.kind <;> decide
  refine ⟨?_, readNumeral_numeral bases.1 bases.2 _, fun zero => ?_⟩
  · rw [libcPrintf, kernPrintf, kvprintf_conversion conv word fits, kvprintf_conversion conv word fits,
      some.injEq, and_self]
    exact render_eq_iff conv word
  · exact Int.natAbs_eq_zero.mp (numeral_head bases.1 bases.2 _ zero)

theorem kvprintf_numbers_padded :
    libcPrintf collect (Conversion.text ⟨.zero, some 8, true, .d⟩) [.word 42] [] =
      some [48, 48, 48, 48, 48, 48, 52, 50] := by
  have printed := ((kvprintf_numbers_iff ⟨.zero, some 8, true, .d⟩ 42
    (fun width asked => by cases asked; decide)).1.mpr (by decide +kernel)).1
  exact printed.trans (by decide +kernel)

/-- `%5d` of -7 is `-    7`, six characters with the sign before the spaces. -/
theorem kvprintf_numbers_sign :
    Conversion.text ⟨.plain, some 5, false, .d⟩ = [37, 53, 100] ∧
    libcPrintf collect [37, 53, 100] [.word (2 ^ 32 - 7)] [] = some [45, 32, 32, 32, 32, 55] ∧
    kernPrintf collect [37, 53, 100] [.word (2 ^ 32 - 7)] [] = some [45, 32, 32, 32, 32, 55] ∧
    Conversion.render ⟨.plain, some 5, false, .d⟩ (2 ^ 32 - 7) = [32, 32, 32, 45, 55] := by
  decide +kernel

end BoringOs.Printf
