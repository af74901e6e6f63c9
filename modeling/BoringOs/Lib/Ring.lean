import Mathlib.Data.List.Range
import Mathlib.Data.Nat.ModEq

/-! A ring of cells: the items between two indices that run around it. -/

namespace Ring

open List Function Nat

variable {Item : Type} {cells : Nat → Item} {size next count : Nat}

/-- The `count` items from index `next` on. -/
def window (cells : Nat → Item) (size next count : Nat) : List Item :=
  (List.range count).map (fun i => cells ((next + i) % size))

/-- The number of items between two indices. -/
def between (size next last : Nat) : Nat := (last + size - next) % size

theorem window_length : (window cells size next count).length = count := by
  rw [window, length_map, length_range]

theorem window_pop (inside : next < size) :
    window cells size next (count + 1) = cells next :: window cells size ((next + 1) % size) count := by
  unfold window
  rw [range_succ_eq_map, map_cons, map_map, add_zero, mod_eq_of_lt inside]
  congr 1
  refine map_congr_left fun i _ => ?_
  rw [Function.comp_apply, mod_add_mod, succ_eq_add_one, add_assoc, add_comm 1 i]

theorem window_push (cells : Nat → Item) (next : Nat) (room : count < size) (item : Item) :
    window (update cells ((next + count) % size) item) size next (count + 1) =
      window cells size next count ++ [item] := by
  unfold window
  rw [range_succ, map_append, map_singleton, update_self]
  congr 1
  refine map_congr_left fun i member => ?_
  have earlier := mem_range.mp member
  refine update_of_ne ?_ ..
  intro same
  have apart : i % size = count % size := Nat.ModEq.add_left_cancel' next same
  rw [mod_eq_of_lt (by omega), mod_eq_of_lt room] at apart
  omega

theorem between_push {last : Nat} (inNext : next < size) (inLast : last < size)
    (room : between size next last + 1 < size) :
    (next + between size next last) % size = last ∧
      between size next ((last + 1) % size) = between size next last + 1 := by
  unfold between at *
  rcases lt_or_ge last next with wrapped | straight
  · rw [mod_eq_of_lt (show last + size - next < size by omega)] at *
    rw [show next + (last + size - next) = last + size by omega, add_mod_right,
      mod_eq_of_lt inLast, mod_eq_of_lt (show last + 1 < size by omega),
      mod_eq_of_lt (show last + 1 + size - next < size by omega)]
    omega
  · rw [show last + size - next = last - next + size by omega, add_mod_right,
      mod_eq_of_lt (show last - next < size by omega)] at *
    rw [show next + (last - next) = last by omega, mod_eq_of_lt inLast]
    refine ⟨rfl, ?_⟩
    rcases lt_or_ge (last + 1) size with inside | around
    · rw [mod_eq_of_lt inside, show last + 1 + size - next = last + 1 - next + size by omega,
        add_mod_right, mod_eq_of_lt (by omega)]
      omega
    · rw [show last + 1 = size by omega, mod_self, zero_add, mod_eq_of_lt (by omega)]
      omega

theorem between_pop {last : Nat} (inNext : next < size) (inLast : last < size) (apart : next ≠ last) :
    between size next last = between size ((next + 1) % size) last + 1 := by
  unfold between
  rcases lt_or_ge (next + 1) size with inside | around
  · rw [mod_eq_of_lt inside]
    rcases lt_or_ge last next with wrapped | straight
    · rw [mod_eq_of_lt (show last + size - next < size by omega),
        mod_eq_of_lt (show last + size - (next + 1) < size by omega)]
      omega
    · rw [show last + size - next = last - next + size by omega,
        show last + size - (next + 1) = last - (next + 1) + size by omega, add_mod_right,
        add_mod_right, mod_eq_of_lt (by omega), mod_eq_of_lt (by omega)]
      omega
  · rw [show next + 1 = size by omega, mod_self, Nat.sub_zero, add_mod_right,
      mod_eq_of_lt inLast, mod_eq_of_lt (by omega)]
    omega

theorem between_eq_zero {last : Nat} (inNext : next < size) (inLast : last < size) :
    between size next last = 0 ↔ next = last := by
  constructor
  · intro none
    by_contra apart
    rw [between_pop inNext inLast apart] at none
    exact absurd none (succ_ne_zero _)
  · rintro rfl
    rw [between, Nat.add_sub_cancel_left, mod_self]

end Ring
