import Mathlib.Algebra.BigOperators.Intervals
import Mathlib.Algebra.Order.BigOperators.Group.Finset

/-! Consecutive spans of given lengths, such as the years and months of a calendar. -/

namespace Spans

/-- What the spans from `start` on take up before `stop`. -/
def elapsed (length : Nat → Nat) (start stop : Nat) : Nat := ∑ i ∈ Finset.Ico start stop, length i

section

variable {length : Nat → Nat} {start i j r k : Nat}

@[simp] theorem elapsed_self (length : Nat → Nat) (start : Nat) : elapsed length start start = 0 := by
  simp [elapsed]

theorem elapsed_succ (length : Nat → Nat) (low : start ≤ i) :
    elapsed length start (i + 1) = elapsed length start i + length i :=
  Finset.sum_Ico_succ_top low length

theorem elapsed_first (length : Nat → Nat) (less : start < i) :
    elapsed length start i = length start + elapsed length (start + 1) i :=
  Finset.sum_eq_sum_Ico_succ_bot less length

theorem elapsed_mono (length : Nat → Nat) (start : Nat) (less : i ≤ j) : elapsed length start i ≤ elapsed length start j :=
  Finset.sum_le_sum_of_subset (Finset.Ico_subset_Ico_right less)

theorem elapsed_congr {other : Nat → Nat} (same : ∀ k, start ≤ k → k < i → length k = other k) :
    elapsed length start i = elapsed other start i :=
  Finset.sum_congr rfl fun k inside =>
    same k (Finset.mem_Ico.mp inside).1 (Finset.mem_Ico.mp inside).2

theorem position_lt (low : start ≤ i) (less : i < j) (inside : r < length i) :
    elapsed length start i + r < elapsed length start j := by
  have next := elapsed_succ length low
  have later := elapsed_mono length start (show i + 1 ≤ j from less)
  omega

theorem position_unique (low : start ≤ i) (low' : start ≤ j) (inside : r < length i)
    (inside' : k < length j) (same : elapsed length start i + r = elapsed length start j + k) :
    i = j ∧ r = k := by
  rcases lt_trichotomy i j with less | rfl | more
  · have := position_lt low less inside
    omega
  · exact ⟨rfl, by omega⟩
  · have := position_lt low' more inside'
    omega

theorem exists_position (positive : ∀ i, 0 < length i) (start number : Nat) :
    ∃ i r, start ≤ i ∧ r < length i ∧ number = elapsed length start i + r := by
  induction number with
  | zero => exact ⟨start, 0, le_rfl, positive start, by simp⟩
  | succ number ih =>
    obtain ⟨i, r, low, inside, rfl⟩ := ih
    by_cases last : r + 1 < length i
    · exact ⟨i, r + 1, low, last, rfl⟩
    · refine ⟨i + 1, 0, by omega, positive (i + 1), ?_⟩
      rw [elapsed_succ length low]
      omega

theorem exists_position_below {stop number : Nat} (below : number < elapsed length start stop) :
    ∃ i r, start ≤ i ∧ i < stop ∧ r < length i ∧ number = elapsed length start i + r := by
  induction stop with
  | zero => simp [elapsed] at below
  | succ stop ih =>
    by_cases earlier : number < elapsed length start stop
    · obtain ⟨i, r, low, less, inside, here⟩ := ih earlier
      exact ⟨i, r, low, by omega, inside, here⟩
    · have low : start ≤ stop := by
        by_contra empty
        rw [elapsed, Finset.Ico_eq_empty (by omega), Finset.sum_empty] at below
        exact Nat.not_lt_zero _ below
      rw [elapsed_succ length low] at below
      exact ⟨stop, number - elapsed length start stop, low, Nat.lt_succ_self _, by omega, by omega⟩

end

/-- The search for the position: spans are taken off until one is longer than what is left. `none` is
a length that is not known, or no fuel. -/
def locate (length : Nat → Option Nat) : Nat → Nat → Nat → Option (Nat × Nat)
  | 0, _, _ => none
  | fuel + 1, i, left =>
    match length i with
    | none => none
    | some n => if left < n then some (i, left) else locate length fuel (i + 1) (left - n)

section

variable {length : Nat → Option Nat} {known : Nat → Nat}

theorem locate_finds {j r : Nat} (inside : r < known j) :
    ∀ fuel i, i ≤ j → (∀ k, i ≤ k → k ≤ j → length k = some (known k)) → j - i < fuel →
      locate length fuel i (elapsed known i j + r) = some (j, r) := by
  intro fuel
  induction fuel with
  | zero =>
    intro i _ _ enough
    omega
  | succ fuel ih =>
    intro i low all enough
    rw [locate, all i le_rfl low]
    dsimp only
    rcases eq_or_lt_of_le low with rfl | less
    · rw [elapsed_self, zero_add, if_pos inside]
    · have first := elapsed_first known less
      have rest : elapsed known i j + r - known i = elapsed known (i + 1) j + r := by omega
      rw [if_neg (by omega), rest]
      exact ih (i + 1) less (fun k above below => all k (by omega) below) (by omega)

theorem locate_sound (agree : ∀ k n, length k = some n → n = known k) :
    ∀ fuel i left j r, locate length fuel i left = some (j, r) →
      i ≤ j ∧ left = elapsed known i j + r ∧ r < known j := by
  intro fuel
  induction fuel with
  | zero =>
    intro i left j r found
    cases found
  | succ fuel ih =>
    intro i left j r found
    rw [locate] at found
    cases here : length i with
    | none =>
      rw [here] at found
      cases found
    | some n =>
      rw [here] at found
      have size := agree i n here
      dsimp only at found
      split at found
      · cases found
        simp only [elapsed_self, zero_add, le_refl, true_and]
        omega
      · obtain ⟨low, rest, inside⟩ := ih (i + 1) (left - n) j r found
        have first := elapsed_first known (show i < j by omega)
        exact ⟨by omega, by omega, inside⟩

end

end Spans
