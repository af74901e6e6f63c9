import Mathlib.Data.List.Range

/-! Searching a range of numbers from below: a `for` loop that returns at the first hit. -/

namespace Search

open List

variable {Result : Type}

/-- The first result of `probe` on `0, 1, …, count - 1`. -/
def firstHit (probe : Nat → Option Result) (count : Nat) : Option Result :=
  (List.range' 0 count).findSome? probe

private theorem findSome_range {probe : Nat → Option Result} {start count : Nat} {result : Result}
    (found : (range' start count).findSome? probe = some result) :
    ∃ hit, start ≤ hit ∧ hit < start + count ∧ probe hit = some result ∧
      ∀ earlier, start ≤ earlier → earlier < hit → probe earlier = none := by
  induction count generalizing start with
  | zero => simp at found
  | succ count ih =>
    rw [range'_succ, findSome?_cons] at found
    cases first : probe start with
    | some value =>
      rw [first] at found
      exact ⟨start, by omega, by omega, first.trans found, by omega⟩
    | none =>
      rw [first] at found
      obtain ⟨hit, low, high, here, before⟩ := ih found
      refine ⟨hit, by omega, by omega, here, ?_⟩
      intro earlier lower upper
      rcases eq_or_lt_of_le lower with rfl | above
      · exact first
      · exact before earlier above upper

theorem firstHit_some {probe : Nat → Option Result} {count : Nat} {result : Result}
    (found : firstHit probe count = some result) :
    ∃ hit < count, probe hit = some result ∧ ∀ earlier < hit, probe earlier = none := by
  obtain ⟨hit, _, high, here, before⟩ := findSome_range found
  exact ⟨hit, by omega, here, fun earlier less => before earlier (Nat.zero_le _) less⟩

theorem firstHit_none {probe : Nat → Option Result} {count : Nat}
    (missed : firstHit probe count = none) : ∀ index < count, probe index = none := by
  intro index inside
  exact findSome?_eq_none_iff.mp missed index (mem_range'_1.mpr ⟨by omega, by omega⟩)

theorem firstHit_eq_none {probe : Nat → Option Result} {count : Nat}
    (missed : ∀ index < count, probe index = none) : firstHit probe count = none := by
  apply findSome?_eq_none_iff.mpr
  intro index member
  exact missed index (by simpa using (mem_range'_1.mp member).2)

theorem firstHit_first {probe : Nat → Option Result} {count : Nat} {result : Result} {hit : Nat}
    (inside : hit < count) (found : probe hit = some result)
    (before : ∀ earlier < hit, probe earlier = none) : firstHit probe count = some result := by
  cases searched : firstHit probe count with
  | none =>
    have missed := firstHit_none searched hit inside
    rw [found] at missed
    exact absurd missed (by simp)
  | some other =>
    obtain ⟨index, _, here, earlier⟩ := firstHit_some searched
    rcases lt_trichotomy index hit with less | rfl | greater
    · rw [before index less] at here
      exact absurd here (by simp)
    · rw [← here, found]
    · rw [earlier hit greater] at found
      exact absurd found (by simp)

theorem firstHit_congr {probe other : Nat → Option Result} {count : Nat}
    (same : ∀ index < count, probe index = other index) : firstHit probe count = firstHit other count := by
  cases searched : firstHit other count with
  | none =>
    refine firstHit_eq_none (fun index inside => ?_)
    rw [same index inside, firstHit_none searched index inside]
  | some result =>
    obtain ⟨hit, inside, here, before⟩ := firstHit_some searched
    refine firstHit_first inside ((same hit inside).trans here) (fun earlier less => ?_)
    rw [same earlier (by omega), before earlier less]

/-! The first element of a list that fails a test splits the list. -/

section

variable {Item : Type} {test : Item → Bool} {front back : List Item}

theorem takeWhile_span (passes : ∀ item ∈ front, test item = true)
    (stops : ∀ item ∈ back.head?, test item = false) : (front ++ back).takeWhile test = front := by
  rw [takeWhile_append_of_pos passes]
  cases back with
  | nil => simp
  | cons item rest => simp [stops item rfl]

theorem dropWhile_span (passes : ∀ item ∈ front, test item = true)
    (stops : ∀ item ∈ back.head?, test item = false) : (front ++ back).dropWhile test = back := by
  rw [dropWhile_append_of_pos passes]
  cases back with
  | nil => rfl
  | cons item rest => simp [stops item rfl]

end

end Search
