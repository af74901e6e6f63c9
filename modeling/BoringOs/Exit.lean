import Mathlib.Data.List.Nodup
import Mathlib.Order.Lattice
import Mathlib.Order.Nat
import Mathlib.Tactic.Tauto

/-! Exit handlers, after `lib/libc/exit.c`. A registration is known by its slot, and the handlers may
register others while `exit` runs. -/

namespace BoringOs.Exit

open List

/-- `_atexits`, a stack linked through `next`, with `_atexit_count` and `_atexit_last`. -/
structure Table (Handler : Type) where
  count : Nat
  cb : Nat → Handler
  next : Nat → Option Nat
  last : Option Nat

variable {Handler : Type}

def initial [Inhabited Handler] : Table Handler := ⟨0, fun _ => default, fun _ => none, none⟩

def atexit (s : Table Handler) (function : Handler) : Table Handler :=
  if s.count < 32 then
    { count := s.count + 1
      cb := Function.update s.cb s.count function
      next := Function.update s.next s.count s.last
      last := some s.count }
  else s

/-- The head is read again after the call. -/
def Table.advance (s : Table Handler) : Table Handler := { s with last := s.last.bind s.next }

/-- `exit` up to `OSExit`, with the slots called so far. What a handler registers depends on all the
calls up to its own. -/
def exit (registers : List Handler → List Handler) :
    Nat → Table Handler → List Nat → Option (List Nat)
  | 0, _, _ => none
  | fuel + 1, s, calls =>
    match s.last with
    | none => some calls
    | some slot =>
      let calls := calls ++ [slot]
      let s := (registers (calls.map s.cb)).foldl atexit s
      exit registers fuel s.advance calls

/-- The calls that are due: always the handler registered last of those that were not called yet,
where `fns` are the registrations accepted so far. -/
def due [Inhabited Handler] (registers : List Handler → List Handler) : Nat → List Handler → List Nat → Option (List Nat)
  | 0, _, _ => none
  | fuel + 1, fns, calls =>
    match (range fns.length).reverse.find? (· ∉ calls) with
    | none => some calls
    | some slot =>
      let calls := calls ++ [slot]
      due registers fuel ((fns ++ registers (calls.map (fns.getD · default))).take 32) calls

/-- `exit` ends, and its calls are the ones that are due. -/
def Right [Inhabited Handler] (registers : List Handler → List Handler) (s : Table Handler) (fns : List Handler)
    (calls : List Nat) : Prop :=
  ∃ fuel out, exit registers fuel s calls = some out ∧ due registers fuel fns calls = some out

/-- The slots that are reached from `last`. -/
def Chain (next : Nat → Option Nat) : Option Nat → List Nat → Prop
  | last, [] => last = none
  | last, slot :: slots => last = some slot ∧ Chain next (next slot) slots

structure Stacked [Inhabited Handler] (s : Table Handler) (fns : List Handler) (slots : List Nat) : Prop where
  count : s.count = fns.length
  bound : fns.length ≤ 32
  cb : ∀ i < fns.length, s.cb i = fns.getD i default
  chain : Chain s.next s.last slots
  below : ∀ slot ∈ slots, slot < fns.length

variable {registers : List Handler → List Handler} {s : Table Handler} {fns : List Handler}
  {slots calls out : List Nat}

theorem Chain.congr {next other : Nat → Option Nat} {last : Option Nat} (chain : Chain next last slots)
    (agree : ∀ slot ∈ slots, other slot = next slot) : Chain other last slots := by
  induction slots generalizing last with
  | nil => exact chain
  | cons slot slots ih =>
    obtain ⟨here, agree⟩ := forall_mem_cons.mp agree
    exact ⟨chain.1, here ▸ ih chain.2 agree⟩

theorem atexit_full (full : s.count = 32) (more : List Handler) : more.foldl atexit s = s := by
  induction more with
  | nil => rfl
  | cons function more ih => rw [foldl_cons, atexit, if_neg (by omega), ih]

variable [Inhabited Handler]

theorem Stacked.atexit (stacked : Stacked s fns slots) (room : fns.length < 32) (function : Handler) :
    Stacked (Exit.atexit s function) (fns ++ [function]) (fns.length :: slots) := by
  rw [Exit.atexit, if_pos (stacked.count ▸ room), stacked.count]
  refine ⟨by simp, length_append ▸ room, fun i below => ?_, ⟨rfl, ?_⟩, ?_⟩
  · by_cases new : i = fns.length
    · simp [new]
    · have old : i < fns.length := by
        rw [length_append, length_singleton] at below
        omega
      simp [Function.update_of_ne new, stacked.cb i old, getElem?_append_left old]
  · show Chain _ (Function.update s.next fns.length s.last fns.length) slots
    rw [Function.update_self]
    refine stacked.chain.congr fun slot member => ?_
    exact Function.update_of_ne (stacked.below slot member).ne ..
  · rw [length_append, length_singleton]
    exact forall_mem_cons.mpr ⟨Nat.lt_succ_self _, fun slot member => Nat.lt_succ_of_lt (stacked.below slot member)⟩

/-- What is registered comes on top, as far as there is room. -/
theorem Stacked.foldl (stacked : Stacked s fns slots) (more : List Handler) :
    Stacked (more.foldl Exit.atexit s) ((fns ++ more).take 32)
      ((range' fns.length (min 32 (fns.length + more.length) - fns.length)).reverse ++ slots) := by
  induction more generalizing s fns slots with
  | nil => simpa [take_of_length_le, stacked.bound, Nat.sub_eq_zero_of_le] using stacked
  | cons function more ih =>
    by_cases room : fns.length < 32
    · have rest := ih (stacked.atexit room function)
      have few : min 32 (fns.length + (function :: more).length) - fns.length =
          min 32 ((fns ++ [function]).length + more.length) - (fns ++ [function]).length + 1 := by
        simp only [length_append, length_cons, length_nil]
        omega
      rw [few, range'_succ, reverse_cons, append_assoc, singleton_append, foldl_cons, append_cons]
      rwa [@length_append _ fns] at rest ⊢
    · have full : fns.length = 32 := by have := stacked.bound; omega
      rw [atexit_full (stacked.count.trans full), take_append_of_le_length full.ge, take_of_length_le full.le,
        Nat.min_eq_left (by omega), full]
      exact stacked

theorem Stacked.pop {slot : Nat} (stacked : Stacked s fns (slot :: slots)) :
    Stacked s.advance fns slots where
  count := stacked.count
  bound := stacked.bound
  cb := stacked.cb
  chain := by
    obtain ⟨last, rest⟩ := stacked.chain
    rwa [Table.advance, last]
  below := (forall_mem_cons.mp stacked.below).2

/-- Every slot of the list is called, whatever the handlers register. -/
theorem Stacked.calls_all (stacked : Stacked s fns slots) {fuel : Nat}
    (ended : exit registers fuel s calls = some out) :
    ∃ more, out = calls ++ more ∧ ∀ slot ∈ slots, slot ∈ more := by
  induction fuel generalizing s fns slots calls with
  | zero => cases ended
  | succ fuel ih =>
    rw [exit] at ended
    cases slots with
    | nil =>
      rw [show s.last = none from stacked.chain] at ended
      cases ended
      exact ⟨[], (append_nil _).symm, nofun⟩
    | cons slot slots =>
      rw [stacked.chain.1] at ended
      have pushed := stacked.foldl (registers ((calls ++ [slot]).map s.cb))
      generalize (range' _ _).reverse = news at pushed
      cases news with
      | nil =>
        obtain ⟨more, rfl, all⟩ := ih pushed.pop ended
        exact ⟨slot :: more, append_cons .. |>.symm, forall_mem_cons.mpr
          ⟨mem_cons_self, fun x member => mem_cons_of_mem _ (all x member)⟩⟩
      | cons new news =>
        obtain ⟨more, rfl, all⟩ := ih pushed.pop ended
        exact ⟨slot :: more, append_cons .. |>.symm, fun x member => mem_cons_of_mem _
          (all x (mem_append_right _ member))⟩

theorem due_nodup {fuel : Nat} (ended : due registers fuel fns calls = some out) (distinct : calls.Nodup) :
    out.Nodup := by
  induction fuel generalizing fns calls with
  | zero => cases ended
  | succ fuel ih =>
    rw [due] at ended
    split at ended
    · cases ended
      exact distinct
    · next slot found =>
      have fresh : slot ∉ calls := by simpa using find?_some found
      exact ih ended (concat_eq_append ▸ distinct.concat fresh)

/-- The calls made with `left` of `n` handlers to go. -/
def called (n left : Nat) : List Nat := (range' left (n - left)).reverse

theorem called_succ {n left : Nat} (below : left < n) : called n (left + 1) ++ [left] = called n left := by
  rw [called, ← reverse_cons, ← range'_succ, called]
  congr 2
  omega

theorem find_next {n left : Nat} (below : left ≤ n) :
    (range n).reverse.find? (· ∉ called n left) = (range left).reverse.head? := by
  have parts := @range'_append_1 0 left (n - left)
  have split : range n = range left ++ range' left (n - left) := by
    rw [range_eq_range', range_eq_range', ← Nat.add_sub_cancel' below, ← parts, Nat.zero_add,
      Nat.add_sub_cancel_left]
  rw [split, reverse_append, find?_append, find?_eq_none.mpr (by simp [called]), Option.none_or]
  cases left with
  | zero => rfl
  | succ left => simp [called, range_succ]

theorem handlers_called {left : Nat} (below : left ≤ fns.length) :
    (called fns.length left).map (fns.getD · default) = (fns.drop left).reverse := by
  rw [called, map_reverse]
  congr 1
  refine ext_getElem (by simp) (fun i low high => ?_)
  rw [length_drop] at high
  simp [show left + i < fns.length by omega]

/-- One more call, after which the handler's own registrations stand above it. -/
theorem Stacked.right_succ {left : Nat} (stacked : Stacked s fns (left :: slots)) (below : left < fns.length) :
    Right registers s fns (called fns.length (left + 1)) ↔
      Right registers ((registers (fns.drop left).reverse).foldl Exit.atexit s).advance
        ((fns ++ registers (fns.drop left).reverse).take 32) (called fns.length left) := by
  have handlers := handlers_called (Nat.le_of_lt below)
  have same : (called fns.length left).map s.cb = (fns.drop left).reverse := by
    rw [← handlers]
    refine map_congr_left fun i member => stacked.cb i ?_
    rw [called, mem_reverse, mem_range'_1] at member
    omega
  have exits : ∀ fuel, exit registers (fuel + 1) s (called fns.length (left + 1)) =
      exit registers fuel ((registers (fns.drop left).reverse).foldl Exit.atexit s).advance
        (called fns.length left) := by
    intro fuel
    rw [exit, stacked.chain.1]
    dsimp only
    rw [called_succ below, same]
  have dues : ∀ fuel, due registers (fuel + 1) fns (called fns.length (left + 1)) =
      due registers fuel ((fns ++ registers (fns.drop left).reverse).take 32) (called fns.length left) := by
    intro fuel
    rw [due, find_next below, range_succ, reverse_concat, head?_cons]
    dsimp only
    rw [called_succ below, handlers]
  constructor
  · rintro ⟨fuel, out, ended, expected⟩
    cases fuel with
    | zero => cases ended
    | succ fuel => exact ⟨fuel, out, (exits fuel).symm.trans ended, (dues fuel).symm.trans expected⟩
  · rintro ⟨fuel, out, ended, expected⟩
    exact ⟨fuel + 1, out, (exits fuel).trans ended, (dues fuel).trans expected⟩

/-- The exact condition with `left` handlers to go. -/
theorem Stacked.right_iff {left : Nat} (stacked : Stacked s fns (range left).reverse)
    (below : left ≤ fns.length) :
    Right registers s fns (called fns.length left) ↔
      fns.length = 32 ∨ ∀ slot < left, registers (fns.drop slot).reverse = [] := by
  induction left generalizing s with
  | zero =>
    refine iff_of_true ⟨1, called fns.length 0, ?_, ?_⟩ (.inr nofun)
    · rw [exit, show s.last = none from stacked.chain]
    · rw [due, find_next (Nat.zero_le _)]
      rfl
  | succ left ih =>
    rw [range_succ, reverse_concat] at stacked
    rw [stacked.right_succ below]
    have pushed := stacked.foldl (registers (fns.drop left).reverse)
    by_cases quiet : fns.length = 32 ∨ registers (fns.drop left).reverse = []
    · -- nothing is registered, and the next handler has its turn
      have none : (registers (fns.drop left).reverse).foldl Exit.atexit s = s ∧
          (fns ++ registers (fns.drop left).reverse).take 32 = fns := by
        rcases quiet with full | empty
        · exact ⟨atexit_full (stacked.count.trans full) _,
            by rw [take_append_of_le_length full.ge, take_of_length_le full.le]⟩
        · rw [empty, append_nil]
          exact ⟨rfl, take_of_length_le stacked.bound⟩
      rw [none.1, none.2, ih stacked.pop (Nat.le_of_succ_le below), Nat.forall_lt_succ_right]
      tauto
    · -- the handler stays in the list and is called again
      rw [not_or] at quiet
      refine iff_of_false ?_ (fun silent => ?_)
      · rintro ⟨fuel, out, ended, expected⟩
        have distinct := due_nodup expected (nodup_reverse.mpr (nodup_range' ..))
        obtain ⟨count, more⟩ : ∃ count, min 32 (fns.length + (registers (fns.drop left).reverse).length) -
            fns.length = count + 1 := by
          have bound := stacked.bound
          have some := length_pos_iff.mpr quiet.2
          exact ⟨_, (Nat.succ_pred_eq_of_pos (by omega)).symm⟩
        rw [more, range'_concat, reverse_concat, cons_append] at pushed
        obtain ⟨later, rfl, all⟩ := pushed.pop.calls_all ended
        refine disjoint_of_nodup_append distinct ?_ (all left (by simp))
        rw [← called_succ below]
        simp
      · exact silent.elim quiet.1 fun all => quiet.2 (all left (Nat.lt_succ_self _))

/-- The calls of `exit` are the ones that are due exactly if the table is full or no handler registers
another one, the handlers being called in the reverse order of their registration. -/
theorem exit_right_iff (fns : List Handler) :
    Right registers (fns.foldl atexit initial) (fns.take 32) [] ↔
      32 ≤ fns.length ∨ ∀ slot < fns.length, registers (fns.drop slot).reverse = [] := by
  have stacked : Stacked (fns.foldl atexit initial) (fns.take 32) (range (fns.take 32).length).reverse := by
    have empty : Stacked (initial : Table Handler) [] [] := ⟨rfl, Nat.zero_le _, nofun, rfl, nofun⟩
    simpa [range_eq_range'] using empty.foldl fns
  have whole := @Stacked.right_iff _ registers _ _ _ _ stacked (Nat.le_refl _)
  rw [called, Nat.sub_self, range'_zero, reverse_nil] at whole
  rw [whole, length_take]
  by_cases full : 32 ≤ fns.length
  · simp [full]
  · rw [take_of_length_le (by omega), Nat.min_eq_right (by omega)]
    simp [full, show fns.length ≠ 32 by omega]

/-- A handler that registers another one is called again in its place. -/
theorem exit_skips :
    let registers : List Nat → List Nat := fun calls => if calls.length = 1 then [1] else []
    exit registers 3 ([0].foldl atexit initial) [] = some [0, 0] ∧ due registers 3 [0] [] = some [0, 1] := by
  decide

end BoringOs.Exit
