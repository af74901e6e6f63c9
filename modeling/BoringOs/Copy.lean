import BoringOs.BufCache

/-! Copies between the kernel and the memory of a system call's caller, after
`sys/kern/copy.c`.

There is one memory, that of `BufState`: it holds the cache buffers and the caller's
bytes alike. `accesses` lists every range that was read or written through an address
the caller supplied. Page faults inside a copy are not part of the model. -/

namespace BoringOs

open ByteMemory BufCache

inductive AccessKind where
  | load
  | store
  deriving DecidableEq

/-- A range of memory touched on behalf of the caller. -/
structure Access where
  kind : AccessKind
  address : Nat
  length : Nat
  deriving DecidableEq

structure IoState where
  cache : BufState
  accesses : List Access

def IoState.copyTo (s : IoState) (address source length : Nat) : IoState where
  cache := { s.cache with memory := copyBytes s.cache.memory address s.cache.memory source length }
  accesses := s.accesses ++ [⟨.store, address, length⟩]

def IoState.copyFrom (s : IoState) (dest address length : Nat) : IoState where
  cache := { s.cache with memory := copyBytes s.cache.memory dest s.cache.memory address length }
  accesses := s.accesses ++ [⟨.load, address, length⟩]

def copyChecked (s moved : IoState) (address length : Nat) : Int × IoState :=
  if length = 0 then (0, s)
  else if MEM_USERSPACE_TOP ≤ address then (EFAULT, s)
  else if MEM_USERSPACE_TOP - address < length then (EFAULT, s)
  else (0, moved)

def copy_In (s : IoState) (fromuser tokernel length : Nat) : Int × IoState :=
  copyChecked s (s.copyFrom tokernel fromuser length) fromuser length

def copy_Out (s : IoState) (fromkernel touser length : Nat) : Int × IoState :=
  copyChecked s (s.copyTo touser fromkernel length) touser length

/-! The same routines over the caller's own memory, as a function that is undefined where
nothing is mapped. A copy yields its result and the bytes it has stored in the kernel. -/

namespace User

abbrev Memory := Nat → Option UInt8

def copyUnsafe (user : Memory) (address : Nat) : Nat → Int × List UInt8
  | 0 => (0, [])
  | count + 1 =>
    match user address with
    | none => (EFAULT, [])
    | some byte =>
      let (code, bytes) := copyUnsafe user (address + 1) count
      (code, byte :: bytes)

/-- `copystrUnsafe` with a length of `count + 1`. -/
def copystrUnsafe (user : Memory) (address : Nat) : Nat → Int × List UInt8
  | 0 => (ENAMETOOLONG, [])
  | count + 1 =>
    match user address with
    | none => (EFAULT, [])
    | some byte =>
      if byte = 0 then (0, [0])
      else
        let (code, bytes) := copystrUnsafe user (address + 1) count
        (code, byte :: bytes)

def checked (address length : Nat) (moved : Int × List UInt8) : Int × List UInt8 :=
  if length = 0 then (0, [])
  else if MEM_USERSPACE_TOP ≤ address then (EFAULT, [])
  else if MEM_USERSPACE_TOP - address < length then (EFAULT, [])
  else moved

def copy_In (user : Memory) (fromuser length : Nat) : Int × List UInt8 :=
  checked fromuser length (copyUnsafe user fromuser length)

variable {user : Memory} {address count fromuser length : Nat} {bytes : List UInt8}

def copy_StrIn (user : Memory) (fromuser length : Nat) : Int × List UInt8 :=
  checked fromuser length (copystrUnsafe user fromuser (length - 1))

theorem copystrUnsafe_fails (refused : (copystrUnsafe user address count).1 ≠ 0) :
    (copystrUnsafe user address count).1 = EFAULT ∨
      (copystrUnsafe user address count).1 = ENAMETOOLONG := by
  induction count generalizing address with
  | zero => exact .inr rfl
  | succ count ih =>
    unfold copystrUnsafe at refused ⊢
    cases found : user address with
    | none => exact .inl rfl
    | some byte =>
      simp only [found] at refused
      by_cases last : byte = 0
      · exact absurd (by rw [if_pos last]) refused
      · simp only [last, ↓reduceIte] at refused ⊢
        exact ih refused

theorem copy_StrIn_fails (refused : (copy_StrIn user fromuser length).1 ≠ 0) :
    (copy_StrIn user fromuser length).1 = EFAULT ∨
      (copy_StrIn user fromuser length).1 = ENAMETOOLONG := by
  unfold copy_StrIn checked at refused ⊢
  split
  · rename_i empty
    exact absurd (by rw [if_pos empty]) refused
  · rename_i positive
    rw [if_neg positive] at refused
    split
    · exact .inl rfl
    · rename_i low
      rw [if_neg low] at refused
      split
      · exact .inl rfl
      · rename_i fits
        rw [if_neg fits] at refused
        exact copystrUnsafe_fails refused

def StringAt (user : Memory) (address : Nat) : List UInt8 → Prop
  | [] => user address = some 0
  | byte :: string => byte ≠ 0 ∧ user address = some byte ∧ StringAt user (address + 1) string

/-- The string fits into the buffer with its terminator, and lies in the user's half. -/
def Fits (user : Memory) (fromuser length : Nat) (string : List UInt8) : Prop :=
  StringAt user fromuser string ∧ string.length + 1 ≤ length ∧
    fromuser + string.length + 1 ≤ MEM_USERSPACE_TOP

theorem StringAt.copied {string : List UInt8} (there : StringAt user address string)
    (fits : string.length < count) : copystrUnsafe user address count = (0, string ++ [0]) := by
  induction string generalizing address count with
  | nil =>
    obtain ⟨count, rfl⟩ := Nat.exists_eq_succ_of_ne_zero (ne_of_gt fits)
    rw [copystrUnsafe, there]
    rfl
  | cons byte string ih =>
    obtain ⟨count, rfl⟩ := Nat.exists_eq_succ_of_ne_zero (ne_zero_of_lt fits)
    rw [copystrUnsafe, there.2.1]
    simp only [there.1, ↓reduceIte, ih there.2.2 (Nat.lt_of_succ_lt_succ fits), List.cons_append]

theorem StringAt.clean {string : List UInt8} (there : StringAt user address string) : 0 ∉ string := by
  induction string generalizing address with
  | nil => exact List.not_mem_nil
  | cons byte string ih =>
    rw [List.mem_cons, not_or]
    exact ⟨there.1.symm, ih there.2.2⟩

theorem copystrUnsafe_string (copied : copystrUnsafe user address count = (0, bytes)) :
    ∃ string, StringAt user address string ∧ bytes = string ++ [0] ∧ string.length < count := by
  induction count generalizing address bytes with
  | zero => simp [copystrUnsafe, ENAMETOOLONG] at copied
  | succ count ih =>
    unfold copystrUnsafe at copied
    cases found : user address with
    | none => simp [found, EFAULT] at copied
    | some byte =>
      simp only [found] at copied
      by_cases last : byte = 0
      · rw [if_pos last] at copied
        have ends := found.trans (congrArg some last)
        exact ⟨[], ends, (congrArg Prod.snd copied).symm, Nat.succ_pos count⟩
      · rw [if_neg last, Prod.mk.injEq] at copied
        obtain ⟨string, there, rest, fits⟩ := ih (Prod.ext copied.1 rfl)
        refine ⟨byte :: string, ⟨last, found, there⟩, ?_, Nat.succ_lt_succ fits⟩
        exact copied.2.symm.trans (congrArg (List.cons byte) rest)

theorem copystrUnsafe_accepts (copied : copystrUnsafe user address count = (0, bytes)) :
    ∃ string, bytes = string ++ [0] ∧ 0 ∉ string ∧ string.length < count := by
  obtain ⟨string, there, rest, fits⟩ := copystrUnsafe_string copied
  exact ⟨string, rest, there.clean, fits⟩

theorem copy_StrIn_accepts
    (positive : 0 < length) (copied : copy_StrIn user fromuser length = (0, bytes)) :
    ∃ string, bytes = string ++ [0] ∧ 0 ∉ string ∧ string.length + 1 < length := by
  unfold copy_StrIn checked at copied
  rw [if_neg (pos_iff_ne_zero.mp positive)] at copied
  split at copied
  · simp [EFAULT] at copied
  · split at copied
    · simp [EFAULT] at copied
    · obtain ⟨string, bytes, clean, fits⟩ := copystrUnsafe_accepts copied
      exact ⟨string, bytes, clean, by omega⟩

theorem copystrUnsafe_length (user : Memory) (address count : Nat) :
    (copystrUnsafe user address count).2.length ≤ count := by
  induction count generalizing address with
  | zero => exact le_rfl
  | succ count ih => grind [copystrUnsafe]

theorem copystrUnsafe_reads {other : Memory} (same : ∀ a < address + count, other a = user a) :
    copystrUnsafe other address count = copystrUnsafe user address count := by
  induction count generalizing address with
  | zero => rfl
  | succ count ih =>
    have rest : copystrUnsafe other (address + 1) count = copystrUnsafe user (address + 1) count :=
      ih (fun a below => same a (by omega))
    rw [copystrUnsafe, copystrUnsafe, same address (by omega), rest]

/-- What `Copy_StrIn` accepts: of the strings that fit, not those that fill the buffer, and none
when the buffer's length from `fromuser` on leaves the user's half. A memory with nothing mapped at
or above the top gives the same result, so nothing is read there. -/
theorem copy_StrIn_accepts_iff (user : Memory) (fromuser count : Nat) :
    (∀ bytes, copy_StrIn user fromuser (count + 1) = (0, bytes) ↔
      ∃ string, Fits user fromuser (count + 1) string ∧ bytes = string ++ [0] ∧
        string.length ≠ count ∧ fromuser + count < MEM_USERSPACE_TOP) ∧
    (copy_StrIn user fromuser (count + 1)).2.length ≤ count + 1 ∧
    ∀ other : Memory, (∀ a < MEM_USERSPACE_TOP, other a = user a) →
      copy_StrIn other fromuser (count + 1) = copy_StrIn user fromuser (count + 1) := by
  have code : ∀ user : Memory, copy_StrIn user fromuser (count + 1) =
      if fromuser + count < MEM_USERSPACE_TOP then copystrUnsafe user fromuser count
      else (EFAULT, []) := by
    intro user
    rw [copy_StrIn, checked]
    grind
  refine ⟨fun bytes => ?_, ?_, fun other same => ?_⟩
  · rw [code]
    constructor
    · intro copied
      split at copied
      · rename_i below
        obtain ⟨string, there, rfl, fits⟩ := copystrUnsafe_string copied
        exact ⟨string, ⟨there, by omega, by omega⟩, rfl, ne_of_lt fits, below⟩
      · exact absurd (congrArg Prod.fst copied) (by decide : EFAULT ≠ 0)
    · rintro ⟨string, ⟨there, fits, -⟩, rfl, short, below⟩
      rw [if_pos below]
      exact there.copied (by omega)
  · rw [code]
    have written := copystrUnsafe_length user fromuser count
    split
    · exact Nat.le_succ_of_le written
    · exact Nat.zero_le _
  · rw [code, code]
    split
    · exact copystrUnsafe_reads (fun a below => same a (by omega))
    · rfl

def letterAt (address : Nat) : Memory := fun a =>
  if a = address then some 97 else if a = address + 1 then some 0 else none

/-- A string that fills a buffer of two bytes, and one of two bytes that ends at the top. -/
theorem copy_StrIn_refuses :
    Fits (letterAt 0x1000) 0x1000 2 [97] ∧
    copy_StrIn (letterAt 0x1000) 0x1000 2 = (ENAMETOOLONG, [97]) ∧
    Fits (letterAt (MEM_USERSPACE_TOP - 2)) (MEM_USERSPACE_TOP - 2) 256 [97] ∧
    copy_StrIn (letterAt (MEM_USERSPACE_TOP - 2)) (MEM_USERSPACE_TOP - 2) 256 = (EFAULT, []) := by
  refine ⟨⟨?_, by decide, by decide⟩, by decide, ⟨?_, by decide, by decide⟩, by decide⟩
  all_goals exact ⟨by decide, by decide, rfl⟩

end User

end BoringOs
