import BoringOs.Lib.ByteMemory
import Mathlib.Data.List.Forall2

/-! `strncpy` and `strtok_r` of `sys/kern/libc.c`, which are those of `lib/libc/string.c`. -/

namespace BoringOs.CString

open ByteMemory Function List Nat

/-- The loop of `strncpy`, which assigns before it tests, with `to` after it and the places it has
stored to. -/
def strncpyLoop : Nat → Nat → Nat → Memory → Memory × Nat × List Nat
  | 0, dest, source, m => (update m dest (m source), dest, [dest])
  | length + 1, dest, source, m =>
    if m source = 0 then (update m dest (m source), dest, [dest])
    else
      let (copied, stop, stores) := strncpyLoop length (dest + 1) (source + 1) (update m dest (m source))
      (copied, stop, dest :: stores)

def strncpy (dest source length : Nat) (m : Memory) : Memory × List Nat :=
  let (m, dest, stores) := strncpyLoop length dest source m
  (update m dest 0, stores ++ [dest])

/-- The objects whose initialisers pass the full size of the name. -/
inductive Named where
  | spinlock
  | slab
  | semaphore
  | waitChannel
  | process

/-- `SPINLOCK_NAMELEN` and so on, and `PROCESS_TITLE_LENGTH`. -/
def Named.size : Named → Nat
  | .process => 128
  | _ => 32

/-- The copy of a name to the array at `place`. -/
def initName (object : Named) (place name : Nat) (m : Memory) : Memory × List Nat :=
  strncpy place name object.size m

/-- `Semaphore_Init`, as far as the name and the field behind it: `count` is set first. -/
def semaphore_Init (place count name : Nat) (m : Memory) : Memory :=
  (initName .semaphore place name (storeLE m (place + 32) 4 count)).1

/-- Whether `strchr` finds a character; the string ends with the terminator. -/
def strchr (delim : List UInt8) (c : UInt8) : Bool := (delim ++ [0]).contains c

/-- A `while` loop of `strtok_r`, which also stops at the terminator. -/
def skip (test : UInt8 → Bool) (m : Memory) : Nat → Nat → Option Nat
  | 0, _ => none
  | fuel + 1, str =>
    if m str ≠ 0 ∧ test (m str) then skip test m fuel (str + 1) else some str

/-- What is returned, `*last` and the memory. -/
def strtok_r (fuel : Nat) (str : Option Nat) (delim : List UInt8) (last : Nat) (m : Memory) :
    Option (Option Nat × Nat × Memory) := do
  let rval ← skip (strchr delim) m fuel (str.getD last)
  if m rval = 0 then return (none, last, m)
  let stop ← skip (fun c => !strchr delim c) m fuel rval
  if m stop = 0 then return (some rval, stop, m)
  return (some rval, stop + 1, update m stop 0)

/-- A number of calls, all but the first with `NULL`, and what they return. -/
def strtokCalls (fuel : Nat) (delim : List UInt8) :
    Nat → Option Nat → Nat → Memory → Option (List (Option Nat) × Nat × Memory)
  | 0, _, last, m => some ([], last, m)
  | calls + 1, str, last, m => do
    let (rval, last, m) ← strtok_r fuel str delim last m
    let (later, rest) ← strtokCalls fuel delim calls none last m
    return (rval :: later, rest)

/-- The non-empty parts between delimiters. -/
def tokens (delim bytes : List UInt8) : List (List UInt8) :=
  (bytes.splitOnP (strchr delim)).filter (· ≠ [])

/-- A part of the string of `bytes` at `str` that was ended in place. -/
def Cut (m m' : Memory) (str : Nat) (bytes : List UInt8) (rval : Nat) (token : List UInt8) : Prop :=
  str ≤ rval ∧ rval + token.length ≤ str + bytes.length ∧ Holds m rval token ∧
    Holds m' rval (token ++ [0])

variable {m : Memory} {dest source : Nat} {name : List UInt8}

section

variable {length : Nat} (string : Holds m source (name ++ [0])) (clean : 0 ∉ name)
  (apart : source + name.length < dest ∨ dest + length ≤ source)
include string clean apart

theorem strncpy_stores :
    (strncpy dest source length m).1 = storeBytes m dest (name.take length ++ [0]) ∧
      ∀ place, place ∈ (strncpy dest source length m).2 ↔
        dest ≤ place ∧ place ≤ dest + min length name.length := by
  induction length generalizing dest source name m with
  | zero =>
    rw [take_zero, nil_append, storeBytes_one]
    refine ⟨update_idem .., fun place => ?_⟩
    simp only [strncpy, strncpyLoop, mem_append, mem_singleton]
    omega
  | succ length ih =>
    cases name with
    | nil =>
      have ended : m source = 0 := (holds_cons.mp string).1
      rw [strncpy, strncpyLoop, if_pos ended, take_nil, nil_append, storeBytes_one]
      refine ⟨update_idem .., fun place => ?_⟩
      simp only [mem_append, mem_singleton, length_nil]
      omega
    | cons byte rest =>
      rw [cons_append] at string
      obtain ⟨first, later⟩ := holds_cons.mp string
      rw [mem_cons, not_or] at clean
      rw [length_cons] at apart
      have kept : Holds (update m dest byte) (source + 1) (rest ++ [0]) := by
        refine later.congr fun place low high => update_of_ne ?_ ..
        rw [length_append, length_singleton] at high
        omega
      obtain ⟨copied, stores⟩ := @ih _ (dest + 1) _ _ kept clean.2 (by omega)
      rw [strncpy, strncpyLoop, first, if_neg (Ne.symm clean.1)]
      refine ⟨?_, fun place => ?_⟩
      · rw [← storeBytes_one, storeBytes_cons, storeBytes_one] at copied
        exact copied
      · show place ∈ dest :: (strncpy (dest + 1) (source + 1) length (update m dest byte)).2 ↔ _
        rw [mem_cons, stores, length_cons]
        omega

/-- The bytes that fit are copied. A copy stores nothing outside the array exactly if the name is
shorter than it, and so does the initialiser of every object; then all else is as it was. -/
theorem strncpy_bounded_iff :
    Holds (strncpy dest source length m).1 dest ((name ++ [0]).take length) ∧
    ((∀ place ∈ (strncpy dest source length m).2, dest ≤ place ∧ place < dest + length) ↔
      name.length < length) ∧
    ∀ object : Named, object.size = length →
      ((∀ place ∈ (initName object dest source m).2, dest ≤ place ∧ place < dest + object.size) ↔
        name.length < object.size) ∧
      (name.length < object.size → ∀ place, place < dest ∨ dest + object.size ≤ place →
        (initName object dest source m).1 place = m place) := by
  obtain ⟨copied, stores⟩ := strncpy_stores string clean apart
  have inside : (∀ place ∈ (strncpy dest source length m).2, dest ≤ place ∧ place < dest + length) ↔
      name.length < length := by
    constructor
    · intro all
      have last := (all (dest + min length name.length) ((stores _).mpr ⟨Nat.le_add_right .., le_rfl⟩)).2
      omega
    · intro fits place stored
      have range := (stores place).mp stored
      omega
  refine ⟨?_, inside, fun object size => ?_⟩
  · rw [copied]
    by_cases fits : name.length < length
    · rw [take_of_length_le (Nat.le_of_lt fits), take_of_length_le]
      · exact storeBytes_holds _ _ _
      · rwa [length_append]
    · rw [take_append_of_le_length (Nat.le_of_not_lt fits)]
      exact (holds_append.mp (storeBytes_holds _ _ _)).1
  · subst size
    refine ⟨inside, fun fits place away => ?_⟩
    rw [initName, copied]
    refine storeBytes_outside _ _ _ _ ?_
    rw [length_append, length_take, length_singleton]
    omega

end

theorem strncpy_bounded_short :
    (initName .semaphore 0 100 (storeBytes (fun _ => 7) 100 [65, 66, 0])).1 32 = 7 :=
  ((@strncpy_bounded_iff _ _ _ [65, 66] _ (storeBytes_holds _ 100 [65, 66, 0]) (by decide)
    (.inr (by decide : 0 + 32 ≤ 100))).2.2 .semaphore rfl).2 (by decide) 32 (.inr le_rfl)

/-- The name of 32 bytes is ended behind its array, which clears the count of a semaphore. -/
theorem semaphore_Init_loses_count :
    let m := storeBytes (fun _ => 0) 100 (replicate 32 65 ++ [0])
    32 ∈ (initName .semaphore 0 100 m).2 ∧ loadLE (semaphore_Init 0 1 100 m) 32 4 = 0 := by
  decide

section

variable {delim bytes : List UInt8} {fuel str : Nat}

theorem tokens_append_cons {c : UInt8} (cut : strchr delim c) (front back : List UInt8) :
    tokens delim (front ++ c :: back) = tokens delim front ++ tokens delim back := by
  rw [tokens, splitOnP_append_cons _ _ cut, filter_append]
  rfl

theorem tokens_skip {front : List UInt8} (cut : ∀ c ∈ front, strchr delim c) (back : List UInt8) :
    tokens delim (front ++ back) = tokens delim back := by
  induction front with
  | nil => rfl
  | cons c front ih =>
    rw [forall_mem_cons] at cut
    rw [cons_append, ← nil_append (c :: _), tokens_append_cons cut.1, ih cut.2]
    rfl

theorem exists_passed (test : UInt8 → Bool) (bytes : List UInt8) :
    ∃ front back, bytes = front ++ back ∧ (∀ c ∈ front, test c) ∧ ∀ c ∈ back.head?, test c = false := by
  refine ⟨_, _, takeWhile_append_dropWhile.symm, all_eq_true.mp all_takeWhile, ?_⟩
  intro c first
  have stops := head?_dropWhile_not test bytes
  rwa [first] at stops

theorem skip_passes {test : UInt8 → Bool} {front back : List UInt8}
    (string : Holds m str (front ++ back ++ [0])) (clean : 0 ∉ front ++ back)
    (pass : ∀ c ∈ front, test c) (stop : ∀ c ∈ back.head?, test c = false)
    (enough : (front ++ back).length < fuel) : skip test m fuel str = some (str + front.length) := by
  obtain ⟨fuel, rfl⟩ := exists_eq_succ_of_ne_zero (Nat.ne_zero_of_lt enough)
  induction front generalizing str fuel with
  | nil =>
    refine if_neg fun going => ?_
    cases back with
    | nil => exact going.1 (holds_cons.mp string).1
    | cons c back =>
      have first : m str = c := (holds_cons.mp string).1
      rw [first, stop c rfl] at going
      exact Bool.false_ne_true going.2
  | cons c front ih =>
    obtain ⟨first, later⟩ := holds_cons.mp string
    rw [forall_mem_cons] at pass
    rw [cons_append, length_cons, succ_lt_succ_iff] at enough
    obtain ⟨fuel, rfl⟩ := exists_eq_succ_of_ne_zero (Nat.ne_zero_of_lt enough)
    rw [cons_append, mem_cons, not_or] at clean
    rw [skip, if_pos, ih later clean.2 pass.2 fuel enough, length_cons, Nat.add_right_comm,
      Nat.add_assoc]
    rw [first]
    exact ⟨Ne.symm clean.1, pass.1⟩

theorem exists_token {c : UInt8} (first : strchr delim c = false) (back : List UInt8) :
    ∃ token rest, c :: back = token ++ rest ∧ tokens delim token = [token] ∧
      (∀ c ∈ token, !strchr delim c) ∧ ∀ c ∈ rest.head?, (!strchr delim c) = false := by
  obtain ⟨token, rest, split, kept, stops⟩ := exists_passed (fun c => !strchr delim c) (c :: back)
  refine ⟨token, rest, split, ?_, kept, stops⟩
  rw [tokens, splitOnP_eq_singleton fun c mem => by simpa using kept c mem]
  refine filter_eq_self.mpr fun part mem => ?_
  rw [mem_singleton.mp mem, decide_eq_true_eq]
  rintro rfl
  have stop := stops c (by rw [← nil_append rest, ← split]; rfl)
  rw [first] at stop
  exact Bool.false_ne_true stop.symm

/-- What a call that returns a token leaves: the rest is a string again, from `next` on. -/
structure Passed (delim : List UInt8) (m : Memory) (str : Nat) (bytes : List UInt8) (rval next : Nat)
    (m' : Memory) (token rest : List UInt8) : Prop where
  split : tokens delim bytes = token :: tokens delim rest
  cut : Cut m m' str bytes rval token
  left : Holds m' next (rest ++ [0])
  clean : 0 ∉ rest
  later : str ≤ next
  ends : next + rest.length = str + bytes.length
  behind : rval + token.length < next ∨ rest = []
  same : ∀ place, place < str ∨ next ≤ place → m' place = m place

theorem strtok_r_next (delim : List UInt8) (string : Holds m str (bytes ++ [0])) (clean : 0 ∉ bytes)
    (enough : bytes.length < fuel) {arg : Option Nat} {last : Nat} (starts : arg.getD last = str) :
    (tokens delim bytes = [] ∧ strtok_r fuel arg delim last m = some (none, last, m)) ∨
    ∃ rval token next rest m', strtok_r fuel arg delim last m = some (some rval, next, m') ∧
      Passed delim m str bytes rval next m' token rest := by
  obtain ⟨lead, back, rfl, leads, head⟩ := exists_passed (strchr delim) bytes
  have skipped := skip_passes string clean leads head enough
  rw [append_assoc, holds_append] at string
  rw [mem_append, not_or] at clean
  rw [strtok_r, starts, skipped, Option.bind_eq_bind, Option.bind_some]
  cases back with
  | nil => exact .inl ⟨tokens_skip leads _, if_pos (holds_cons.mp string.2).1⟩
  | cons c back =>
    have present : m (str + lead.length) ≠ 0 := by
      rw [(holds_cons.mp string.2).1]
      exact fun zero => clean.2 (zero ▸ mem_cons_self)
    obtain ⟨token, rest, split, plain, kept, stops⟩ := exists_token (head c rfl) back
    rw [split] at string enough clean ⊢
    have found : skip (fun c => !strchr delim c) m fuel (str + lead.length) =
        some (str + lead.length + token.length) :=
      skip_passes string.2 clean.2 kept stops (by rw [length_append] at enough; omega)
    obtain ⟨whole, after⟩ := holds_append.mp (append_assoc .. ▸ string.2)
    rw [if_neg present, found, Option.bind_some]
    right
    cases rest with
    | nil =>
      have ended : m (str + lead.length + token.length) = 0 := (holds_cons.mp after).1
      refine ⟨_, token, _, [], m, if_pos ended, ?_, ⟨?_, ?_, whole, holds_append.mpr ⟨whole, after⟩⟩,
        after, not_mem_nil, ?_, ?_, .inr rfl, fun _ _ => rfl⟩
      · rw [tokens_skip leads, append_nil, plain]
        rfl
      all_goals simp [Nat.add_assoc]
    | cons d rest =>
      rw [mem_append, not_or, mem_cons, not_or] at clean
      obtain ⟨first, after⟩ := holds_cons.mp after
      rw [first, if_neg (Ne.symm clean.2.2.1)]
      have delimiter : strchr delim d := by simpa using stops d rfl
      refine ⟨_, token, _, rest, _, rfl, ?_, ⟨?_, ?_, whole, ?_⟩, ?_, clean.2.2.2, ?_, ?_,
        .inl (lt_succ_self _), ?_⟩
      · rw [tokens_skip leads, tokens_append_cons delimiter, plain]
        rfl
      · omega
      · simp only [length_append]
        omega
      · exact whole.snoc 0
      · exact after.congr fun place low high => update_of_ne (Nat.ne_of_gt low) ..
      · omega
      · simp only [length_append, length_cons]
        omega
      · exact fun place away => update_of_ne (by omega) ..

section

variable {rval next : Nat} {m' m'' : Memory} {token rest : List UInt8}
  (passed : Passed delim m str bytes rval next m' token rest)
include passed

theorem Passed.cut_later {p : Nat} {t : List UInt8} (cut : Cut m' m'' next rest p t) :
    Cut m m'' str bytes p t := by
  obtain ⟨low, high, whole, ended⟩ := cut
  refine ⟨passed.later.trans low, passed.ends ▸ high, whole.congr fun place above _ => ?_, ended⟩
  exact (passed.same place (.inr (low.trans above))).symm

theorem Passed.cut_kept
    (kept : ∀ place, place < next ∨ next + rest.length ≤ place → m'' place = m' place) :
    Cut m m'' str bytes rval token := by
  obtain ⟨low, high, whole, ended⟩ := passed.cut
  refine ⟨low, high, whole, ended.congr fun place above below => kept place ?_⟩
  rw [length_append, length_singleton] at below
  rcases passed.behind with behind | rfl
  · omega
  · exact Nat.lt_or_ge ..

end

theorem strtokCalls_succ {calls last next : Nat} {arg rval : Option Nat} {m' : Memory}
    {rvals : List (Option Nat)} {rest : Nat × Memory}
    (call : strtok_r fuel arg delim last m = some (rval, next, m'))
    (later : strtokCalls fuel delim calls none next m' = some (rvals, rest)) :
    strtokCalls fuel delim (calls + 1) arg last m = some (rval :: rvals, rest) := by
  simp only [strtokCalls, call, later, Option.bind_eq_bind, Option.bind_some]
  rfl

/-- The calls return the tokens in order, each ended in place and left alone later, and `NULL` from
the next one on. -/
theorem strtokCalls_tokens (string : Holds m str (bytes ++ [0])) (clean : 0 ∉ bytes)
    (enough : bytes.length < fuel) (calls : Nat) {arg : Option Nat} {last : Nat}
    (starts : arg.getD last = str) (known : last = str ∨ tokens delim bytes ≠ [] ∨ calls ≤ 1) :
    ∃ rvals last' m', strtokCalls fuel delim calls arg last m =
        some (rvals.map some ++ replicate (calls - (tokens delim bytes).length) none, last', m') ∧
      Forall₂ (Cut m m' str bytes) rvals ((tokens delim bytes).take calls) ∧
      ∀ place, place < str ∨ str + bytes.length ≤ place → m' place = m place := by
  induction calls generalizing m str bytes arg last with
  | zero => exact ⟨[], last, m, by simp [strtokCalls], by simp, fun _ _ => rfl⟩
  | succ calls ih =>
    obtain ⟨nothing, call⟩ | ⟨rval, token, next, rest, m', call, passed⟩ :=
      strtok_r_next delim string clean enough starts
    · have again : last = str ∨ calls = 0 := by
        rcases known with known | known | known
        · exact .inl known
        · exact absurd nothing known
        · exact .inr (by omega)
      rcases again with rfl | rfl
      · obtain ⟨rvals, last', m', later, cuts, kept⟩ :=
          ih string clean enough (Option.getD_none ..) (.inl rfl)
        rw [nothing, take_nil] at cuts ⊢
        cases cuts
        refine ⟨[], last', m', ?_, .nil, kept⟩
        rw [strtokCalls_succ call later, nothing]
        rfl
      · refine ⟨[], last, m, ?_, ?_, fun _ _ => rfl⟩
        · rw [strtokCalls_succ call rfl, nothing]
          rfl
        · rw [nothing]
          exact .nil
    · obtain ⟨rvals, last', m'', later, cuts, kept⟩ := ih passed.left passed.clean
        (by have := passed.later; have := passed.ends; omega) (Option.getD_none ..) (.inl rfl)
      refine ⟨rval :: rvals, last', m'', ?_, ?_, fun place away => ?_⟩
      · rw [strtokCalls_succ call later, passed.split, length_cons, Nat.add_sub_add_right]
        rfl
      · rw [passed.split, take_succ_cons]
        exact .cons (passed.cut_kept kept) (cuts.imp fun _ _ => passed.cut_later)
      · have := passed.later
        have := passed.ends
        rw [kept place (by omega), passed.same place (by omega)]

theorem strtokCalls_two_words : ∃ (rvals : List Nat) (last : Nat) (m : Memory),
    strtokCalls 4 [32] 3 (some 100) 0 (storeBytes (fun _ => 0) 100 [97, 32, 98, 0]) =
      some (rvals.map some ++ [none], last, m) := by
  have words : tokens [32] [97, 32, 98] = [[97], [98]] := by decide
  obtain ⟨rvals, last, m, calls, -⟩ := @strtokCalls_tokens _ [32] [97, 32, 98] 4 100
    (storeBytes_holds (fun _ => 0) 100 [97, 32, 98, 0]) (by decide) (by decide) 3 (some 100) 0 rfl
    (.inr (.inl (by rw [words]; exact nofun)))
  rw [words] at calls
  exact ⟨rvals, last, m, calls⟩

end

end BoringOs.CString
