import BoringOs.Lib.ByteMemory

/-! `fgets` of `lib/libc/file.c`, over the results of its calls to `fgetc`. -/

namespace BoringOs.Stdio

open ByteMemory Function

/-- What `fgets` returns; it still reads when the results of `fgetc` are used up. -/
inductive Outcome where
  | null
  | string
  | reading
deriving DecidableEq

/-- The loop from an index, with the results it does not use. -/
def fgetsLoop (str : Nat) (size : Int) (i : Int) (input : List Int) (m : Memory) :
    Outcome × List Int × Memory :=
  if i < size - 1 then
    match input with
    | [] => (.reading, [], m)
    | ch :: input =>
      if ch = -1 then (.null, input, m)
      else if ch = 8 then
        let i := if i > 0 then i - 1 else i
        fgetsLoop str size (i - 1 + 1) input m
      else
        let m := update m (str + i).toNat (UInt8.ofInt ch)
        if ch = 10 then (.string, input, update m (str + (i + 1)).toNat 0)
        else fgetsLoop str size (i + 1) input m
  else (.string, input, update m (str + (size - 1)).toNat 0)

def fgets (str : Nat) (size : Int) (input : List Int) (m : Memory) : Outcome × List Int × Memory :=
  fgetsLoop str size 0 input m

/-- The line editor `fgets` is to be, on the characters kept so far. -/
def editLine (limit : Nat) (kept : List UInt8) (input : List Int) : Outcome × List Int × List UInt8 :=
  if kept.length < limit then
    match input with
    | [] => (.reading, [], kept)
    | ch :: input =>
      if ch = -1 then (.null, input, kept)
      else if ch = 8 then editLine limit kept.dropLast input
      else if ch = 10 then (.string, input, kept ++ [10])
      else editLine limit (kept ++ [UInt8.ofInt ch]) input
  else (.string, input, kept)

/-- A call from memory `m` did what the editor does, inside the array only. -/
def Edits (str limit : Nat) (m : Memory) (did : Outcome × List Int × Memory)
    (line : Outcome × List Int × List UInt8) : Prop :=
  did.1 = line.1 ∧ did.2.1 = line.2.1 ∧ (line.1 = .string → Holds did.2.2 str (line.2.2 ++ [0])) ∧
    ∀ place, place < str ∨ str + limit < place → did.2.2 place = m place

variable {str limit : Nat} {kept : List UInt8} {m : Memory}

theorem Edits.update (byte : UInt8) {place : Nat} {did : Outcome × List Int × Memory}
    {line : Outcome × List Int × List UInt8} (edits : Edits str limit (update m place byte) did line)
    (low : str ≤ place) (high : place ≤ str + limit) : Edits str limit m did line := by
  refine ⟨edits.1, edits.2.1, edits.2.2.1, fun other away => ?_⟩
  rw [edits.2.2.2 other away, update_of_ne (by omega)]

theorem Edits.refl (outcome : Outcome) (input : List Int) (unfinished : outcome ≠ .string) :
    Edits str limit m (outcome, input, m) (outcome, input, kept) :=
  ⟨rfl, rfl, fun done => absurd done unfinished, fun _ _ => rfl⟩

theorem edits_end (held : Holds m str kept) (room : kept.length ≤ limit) (input : List Int) :
    Edits str limit m (.string, input, Function.update m (str + kept.length) 0) (.string, input, kept) :=
  ⟨rfl, rfl, fun _ => held.snoc 0, fun _ away => update_of_ne (by omega) ..⟩

theorem fgetsLoop_edits (input : List Int) (held : Holds m str kept) (room : kept.length ≤ limit) :
    Edits str limit m (fgetsLoop str (limit + 1) kept.length input m) (editLine limit kept input) := by
  induction input generalizing kept m with
  | nil =>
    unfold fgetsLoop editLine
    by_cases more : kept.length < limit
    · rw [if_pos (by omega), if_pos more]
      exact .refl .reading [] nofun
    · obtain rfl : kept.length = limit := by omega
      rw [if_neg (by omega), if_neg more, Int.add_sub_cancel]
      exact edits_end held room []
  | cons ch input ih =>
    unfold fgetsLoop editLine
    by_cases more : kept.length < limit
    · rw [if_pos (by omega), if_pos more]
      dsimp only
      have index : (str + kept.length : Int).toNat = str + kept.length := by omega
      by_cases eof : ch = -1
      · rw [if_pos eof, if_pos eof]
        exact .refl .null input nofun
      by_cases back : ch = 8
      · rw [if_neg eof, if_neg eof, if_pos back, if_pos back]
        rcases kept.eq_nil_or_concat with rfl | ⟨front, last, rfl⟩
        · exact ih held room
        · rw [List.concat_eq_append] at held room ⊢
          rw [List.length_append, List.length_singleton] at room ⊢
          rw [List.dropLast_concat, if_pos (by omega), Int.sub_add_cancel, Int.natCast_add,
            Int.natCast_one, Int.add_sub_cancel]
          exact ih (holds_append.mp held).1 (by omega)
      rw [if_neg eof, if_neg eof, if_neg back, if_neg back, index]
      have held := held.snoc (UInt8.ofInt ch)
      have room : (kept ++ [UInt8.ofInt ch]).length ≤ limit := by
        rwa [List.length_append]
      refine Edits.update (UInt8.ofInt ch) ?_ (Nat.le_add_right str kept.length) (by omega)
      by_cases newline : ch = 10
      · rw [if_pos newline, if_pos newline]
        subst newline
        have ended := edits_end held room input
        rw [List.length_append, List.length_singleton] at ended
        rw [show (str + (kept.length + 1) : Int).toNat = str + (kept.length + 1) by omega]
        exact ended
      · rw [if_neg newline, if_neg newline]
        have more := ih held room
        rwa [List.length_append, List.length_singleton] at more
    · obtain rfl : kept.length = limit := by omega
      rw [if_neg (by omega), if_neg more, Int.add_sub_cancel]
      exact edits_end held room _

theorem fgets_edits (str : Nat) {size : Int} (sized : 1 ≤ size) (input : List Int) (m : Memory) :
    Edits str (size - 1).toNat m (fgets str size input m) (editLine (size - 1).toNat [] input) := by
  obtain ⟨limit, rfl⟩ : ∃ limit : Nat, size = limit + 1 := ⟨(size - 1).toNat, by omega⟩
  rw [Int.add_sub_cancel, Int.toNat_natCast]
  exact @fgetsLoop_edits _ _ [] _ input (fun _ => nofun) (Nat.zero_le _)

theorem fgets_edits_backspace :
    let m := (fgets 100 8 [97, 8, 8, 98, 10] (fun _ => 7)).2.2
    Holds m 100 [98, 10, 0] ∧ m 108 = 7 := by
  have edits := @fgets_edits 100 8 (by decide) [97, 8, 8, 98, 10] (fun _ => 7)
  exact ⟨edits.2.2.1 (by decide), edits.2.2.2 108 (.inr (by decide))⟩

end BoringOs.Stdio
