import BoringOs.Copy
import BoringOs.SystemMap
import Mathlib.Tactic.IntervalCases

/-! The arguments of a new process, after `Syscall_Spawn` of `sys/kern/syscall.c` and `_start`
of `lib/libc/crt1.c`.

The kernel collects the strings in `kargBuffer` and copies them into the child's argument
page. An access outside these two pages has no result. -/

namespace BoringOs.Spawn

open ByteMemory List Option Nat

open PAlloc (PGSIZE)
open PMap (MEM_DIRECTMAP_BASE MEM_DIRECTMAP_LEN)

def MEM_USERSPACE_STKTOP : Nat := 0x70010000

def argPageUserVA : Nat := MEM_USERSPACE_STKTOP - PGSIZE

/-- `kargBuffer` and `childArgPage` in the kernel's memory. -/
structure Pages where
  karg : Nat
  child : Nat
  memory : Memory

def InPage (page address : Nat) : Prop := page ≤ address ∧ address < page + PGSIZE

instance (page address : Nat) : Decidable (InPage page address) :=
  inferInstanceAs (Decidable (_ ∧ _))

def cString (memory : Memory) (mapped : Nat → Prop) [DecidablePred mapped] :
    Nat → Nat → Option (List UInt8)
  | 0, _ => none
  | fuel + 1, address =>
    if mapped address then
      if memory address = 0 then some []
      else (cString memory mapped fuel (address + 1)).map (List.cons (memory address))
    else none

namespace Pages

def Mapped (s : Pages) (address : Nat) : Prop := InPage s.karg address ∨ InPage s.child address

instance (s : Pages) : DecidablePred s.Mapped :=
  fun address => inferInstanceAs (Decidable (InPage s.karg address ∨ InPage s.child address))

def Inside (s : Pages) (address count : Nat) : Prop := ∀ k < count, s.Mapped (address + k)

instance (s : Pages) (address count : Nat) : Decidable (s.Inside address count) :=
  inferInstanceAs (Decidable (∀ k < count, _))

def write (s : Pages) (address count : Nat) (memory : Memory) : Option Pages :=
  if s.Inside address count then some { s with memory := memory } else none

def storeBytes (s : Pages) (address : Nat) (bytes : List UInt8) : Option Pages :=
  s.write address bytes.length (ByteMemory.storeBytes s.memory address bytes)

def storeWord (s : Pages) (address value : Nat) : Option Pages :=
  s.write address 8 (storeLE s.memory address 8 value)

def loadWord (s : Pages) (address : Nat) : Option Nat :=
  if s.Inside address 8 then some (loadLE s.memory address 8) else none

/-- More steps than the two pages have bytes. -/
def limit : Nat := 2 * PGSIZE + 1

def strlen (s : Pages) (address : Nat) : Option Nat :=
  (cString s.memory s.Mapped limit address).map List.length

def strcpyLoop : Nat → Pages → Nat → Nat → Option Pages
  | 0, _, _, _ => none
  | fuel + 1, s, dest, source =>
    if s.Mapped source then
      match s.storeBytes dest [s.memory source] with
      | none => none
      | some t =>
        if s.memory source = 0 then some t else strcpyLoop fuel t (dest + 1) (source + 1)
    else none

def strcpy (s : Pages) (dest source : Nat) : Option Pages := strcpyLoop limit s dest source

end Pages

/-- `userArgPtr` after its `Copy_In`. -/
def argWord (user : User.Memory) (user_argv idx : Nat) : Int × Nat :=
  let (ret, bytes) := User.copy_In user (add64 user_argv (idx * 8)) 8
  (ret, loadLE (bytesAt bytes) 0 8)

/-- The loop that fills `kargBuffer`; `left` is `8 - idx`. -/
def stageLoop (user : User.Memory) (user_argv : Nat) :
    Nat → Nat → Nat → Pages → Option (Int × Pages)
  | 0, _, _, s => some (0, s)
  | left + 1, idx, strStore, s =>
    let (ret, userArgPtr) := argWord user user_argv idx
    if ret ≠ 0 then some (ret, s)
    else if userArgPtr = 0 then some (0, s)
    else
      let (ret, bytes) := User.copy_StrIn user userArgPtr 256
      match s.storeBytes strStore bytes with
      | none => none
      | some t =>
        if ret ≠ 0 then some (ret, t)
        else
          match t.storeWord (t.karg + 8 + idx * 8) strStore with
          | none => none
          | some u =>
            match u.strlen strStore with
            | none => none
            | some length => stageLoop user user_argv left (idx + 1) (strStore + length + 1) u

/-- The loop that fills the child's page; `left` is `8 - i`. -/
def buildLoop : Nat → Nat → Nat → Nat → Pages → Option (Nat × Pages)
  | 0, _, _, argc, s => some (argc, s)
  | left + 1, i, currentOffset, argc, s =>
    match s.loadWord (s.karg + 8 + i * 8) with
    | none => none
    | some kStr =>
      if kStr = 0 then some (argc, s)
      else
        match s.strlen kStr with
        | none => none
        | some length =>
          match s.strcpy (s.child + 64 + currentOffset) kStr with
          | none => none
          | some t =>
            match t.storeWord (t.child + 8 + i * 8) (argPageUserVA + 64 + currentOffset) with
            | none => none
            | some u => buildLoop left (i + 1) (currentOffset + length + 1) (argc + 1) u

theorem buildLoop_zero (i currentOffset argc : Nat) (s : Pages) :
    buildLoop 0 i currentOffset argc s = some (argc, s) := rfl

theorem buildLoop_succ (left i currentOffset argc : Nat) (s : Pages) :
    buildLoop (left + 1) i currentOffset argc s =
      match s.loadWord (s.karg + 8 + i * 8) with
      | none => none
      | some kStr =>
        if kStr = 0 then some (argc, s)
        else
          match s.strlen kStr with
          | none => none
          | some length =>
            match s.strcpy (s.child + 64 + currentOffset) kStr with
            | none => none
            | some t =>
              match t.storeWord (t.child + 8 + i * 8) (argPageUserVA + 64 + currentOffset) with
              | none => none
              | some u => buildLoop left (i + 1) (currentOffset + length + 1) (argc + 1) u := by
  rfl

def buildArgs (s : Pages) : Option Pages :=
  match buildLoop 8 0 0 0 s with
  | none => none
  | some (argc, t) => t.storeWord t.child argc

/-- What the other parts of the kernel do with the program: whether `VFS_Open` finds it,
whether `Loader_CheckHeader` takes it, and the process it becomes. -/
structure Program where
  opens : List UInt8 → Bool
  checks : List UInt8 → Bool
  pid : Nat

/-- A page as `PAlloc_AllocPage` returns it. -/
def clearPage (memory : Memory) (page : Nat) : Memory := copyBytes memory page (fun _ => 0) 0 PGSIZE

/-- `Syscall_Spawn`, with the pages once the child can run. -/
def syscall_Spawn (program : Program) (pages : Pages) (user : User.Memory) (user_path user_argv : Nat) :
    Option (Nat × Option Pages) :=
  let (ret, exeName) := User.copy_StrIn user user_path 512
  if ret ≠ 0 then some (SYSCALL_PACK ret 0, none)
  else
    let s := { pages with memory := clearPage pages.memory pages.karg }
    match stageLoop user user_argv 8 0 (s.karg + 64) s with
    | none => none
    | some (ret, t) =>
      if ret ≠ 0 then some (SYSCALL_PACK ret 0, none)
      else if program.opens exeName = false then some (SYSCALL_PACK EINVAL 0, none)
      else if program.checks exeName = false then some (SYSCALL_PACK EINVAL 0, none)
      else (buildArgs t).map (fun u => (SYSCALL_PACK 0 program.pid, some u))

/-- `argv[i]` as the child sees it, an address in its own page. -/
def argString (s : Pages) (i : Nat) : Option (List UInt8) :=
  let pointer := loadLE s.memory (s.child + 8 + i * 8) 8
  if InPage argPageUserVA pointer then
    cString s.memory (InPage s.child) Pages.limit (s.child + (pointer - argPageUserVA))
  else none

def startArgs (s : Pages) : Option (List (List UInt8)) :=
  (List.range (loadLE s.memory s.child 8)).mapM (argString s)

def Argv (user : User.Memory) (user_argv : Nat) : Nat → List (List UInt8) → Prop
  | idx, [] => idx < 8 → argWord user user_argv idx = (0, 0)
  | idx, arg :: args =>
    ((argWord user user_argv idx).1 = 0 ∧ (argWord user user_argv idx).2 ≠ 0 ∧ arg ≠ [] ∧
      User.copy_StrIn user (argWord user user_argv idx).2 256 = (0, arg ++ [0])) ∧
    Argv user user_argv (idx + 1) args

instance Argv.decidable (user : User.Memory) (user_argv : Nat) :
    (idx : Nat) → (args : List (List UInt8)) → Decidable (Argv user user_argv idx args)
  | idx, [] => inferInstanceAs (Decidable (idx < 8 → _))
  | idx, _ :: args =>
    have := Argv.decidable user user_argv (idx + 1) args
    inferInstanceAs (Decidable ((_ ∧ _ ∧ _ ∧ _) ∧ _))

/-- Two pages of the direct map. -/
structure Placed (karg child : Nat) : Prop where
  kargLow : MEM_DIRECTMAP_BASE ≤ karg
  kargHigh : karg + PGSIZE ≤ MEM_DIRECTMAP_BASE + MEM_DIRECTMAP_LEN
  childLow : MEM_DIRECTMAP_BASE ≤ child
  childHigh : child + PGSIZE ≤ MEM_DIRECTMAP_BASE + MEM_DIRECTMAP_LEN
  apart : karg + PGSIZE ≤ child ∨ child + PGSIZE ≤ karg

/-- A call of `Syscall_Spawn`. -/
structure Call where
  program : Program
  user : User.Memory
  user_path : Nat
  user_argv : Nat

/-- The program exists and the arguments are readable. -/
structure Call.Valid (call : Call) (args : List (List UInt8)) : Prop where
  path : ∃ exeName, User.copy_StrIn call.user call.user_path 512 = (0, exeName) ∧
    call.program.opens exeName = true ∧ call.program.checks exeName = true
  argv : Argv call.user call.user_argv 0 args

def RoundTrip (pages : Pages) (call : Call) (args : List (List UInt8)) : Prop :=
  ∃ t, syscall_Spawn call.program pages call.user call.user_path call.user_argv =
      some (SYSCALL_PACK 0 call.program.pid, some t) ∧
    startArgs t = some args

variable {memory : Memory} {s t : Pages} {done args rest : List (List UInt8)} {fuel count address page view i : Nat}

variable {mapped : Nat → Prop} {arg tail : List UInt8} {left offset argc dest source : Nat}

theorem cString_eq [DecidablePred mapped]
    {string : List UInt8} (holds : Holds memory address (string ++ [0]))
    (clean : 0 ∉ string) (readable : ∀ k ≤ string.length, mapped (address + k))
    (enough : string.length < fuel) : cString memory mapped fuel address = some string := by
  induction string generalizing address fuel with
  | nil =>
    obtain ⟨fuel, rfl⟩ := exists_eq_add_one_of_ne_zero (ne_of_gt enough)
    have here : mapped address := readable 0 le_rfl
    rw [cString, if_pos here, if_pos (holds_cons.mp holds).1]
  | cons byte rest ih =>
    obtain ⟨fuel, rfl⟩ := exists_eq_add_one_of_ne_zero (ne_of_gt (zero_lt_of_lt enough))
    rw [cons_append, holds_cons] at holds
    rw [mem_cons, not_or] at clean
    have tail := ih holds.2 clean.2 (by
      intro k bound
      rw [Nat.add_assoc, Nat.add_comm 1]
      exact readable (k + 1) (succ_le_succ bound)) (lt_of_succ_lt_succ enough)
    have here : mapped address := readable 0 (Nat.zero_le _)
    rw [cString, if_pos here, holds.1, if_neg (Ne.symm clean.1), tail]
    rfl

theorem cString_holds [DecidablePred mapped] {string : List UInt8}
    (found : cString memory mapped fuel address = some string) : Holds memory address string := by
  induction fuel generalizing address string with
  | zero => cases found
  | succ fuel ih =>
    unfold cString at found
    split at found
    · split at found
      · cases found
        intro index inside
        cases inside
      · obtain ⟨rest, tail, rfl⟩ := map_eq_some_iff.mp found
        exact holds_cons.mpr ⟨rfl, ih tail⟩
    · cases found

theorem cString_length [DecidablePred mapped] {string : List UInt8}
    (found : cString memory mapped fuel address = some string) : string.length < fuel := by
  induction fuel generalizing address string with
  | zero => cases found
  | succ fuel ih =>
    unfold cString at found
    split at found
    · split at found
      · cases found
        exact succ_pos fuel
      · obtain ⟨rest, tail, rfl⟩ := map_eq_some_iff.mp found
        exact succ_lt_succ (ih tail)
    · cases found

namespace Pages

theorem write_eq_some :
    s.write address count memory = some t ↔
      s.Inside address count ∧ { s with memory := memory } = t := by
  rw [write, ite_none_right_eq_some, some.injEq]

theorem strcpyLoop_eq {string : List UInt8}
    (holds : Holds s.memory source (string ++ [0])) (clean : 0 ∉ string)
    (readable : ∀ k ≤ string.length, s.Mapped (source + k))
    (writable : ∀ k ≤ string.length, s.Mapped (dest + k))
    (apart : source + string.length < dest ∨ dest + string.length < source)
    (enough : string.length < fuel) :
    strcpyLoop fuel s dest source =
      some { s with memory := ByteMemory.storeBytes s.memory dest (string ++ [0]) } := by
  induction string generalizing s dest source fuel with
  | nil =>
    obtain ⟨fuel, rfl⟩ := exists_eq_add_one_of_ne_zero (ne_of_gt enough)
    have byte := (holds_cons.mp holds).1
    have stored : s.storeBytes dest [0] =
        some { s with memory := ByteMemory.storeBytes s.memory dest [0] } := by
      refine if_pos ?_
      intro k bound
      exact writable k (le_of_lt_succ bound)
    have here : s.Mapped source := readable 0 le_rfl
    rw [strcpyLoop, if_pos here, byte, stored]
    rfl
  | cons byte rest ih =>
    obtain ⟨fuel, rfl⟩ := exists_eq_add_one_of_ne_zero (ne_of_gt (zero_lt_of_lt enough))
    rw [cons_append, holds_cons] at holds
    rw [mem_cons, not_or] at clean
    rw [length_cons] at readable writable apart
    have stored : s.storeBytes dest [byte] =
        some { s with memory := ByteMemory.storeBytes s.memory dest [byte] } := by
      refine if_pos ?_
      intro k bound
      exact writable k (by simp at bound; omega)
    have kept : Holds (ByteMemory.storeBytes s.memory dest [byte]) (source + 1) (rest ++ [0]) := by
      apply holds.2.congr
      intro place low high
      rw [length_append, length_singleton] at high
      exact storeBytes_outside _ _ _ _ (by rw [length_singleton]; omega)
    have next : strcpyLoop fuel { s with memory := ByteMemory.storeBytes s.memory dest [byte] }
        (dest + 1) (source + 1) = some ⟨s.karg, s.child, ByteMemory.storeBytes
          (ByteMemory.storeBytes s.memory dest [byte]) (dest + 1) (rest ++ [0])⟩ := by
      refine ih kept clean.2 ?_ ?_ (by omega) (lt_of_succ_lt_succ enough)
      · intro k bound
        rw [add_assoc, add_comm 1]
        exact readable (k + 1) (succ_le_succ bound)
      · intro k bound
        rw [Nat.add_assoc, Nat.add_comm 1]
        exact writable (k + 1) (succ_le_succ bound)
    have here : s.Mapped source := readable 0 (Nat.zero_le _)
    rw [strcpyLoop, if_pos here, holds.1, stored]
    simp only [Ne.symm clean.1, ↓reduceIte]
    rw [next, storeBytes_cons]
    rfl

theorem strcpyLoop_frame (ran : strcpyLoop fuel s dest source = some t) :
    t.karg = s.karg ∧ t.child = s.child ∧ ∀ place < dest, t.memory place = s.memory place := by
  induction fuel generalizing s dest source with
  | zero => cases ran
  | succ fuel ih =>
    unfold strcpyLoop at ran
    split at ran
    · cases stored : s.storeBytes dest [s.memory source] with
      | none => simp [stored] at ran
      | some u =>
        obtain ⟨_, rfl⟩ := write_eq_some.mp stored
        have kept : ∀ place < dest,
            ByteMemory.storeBytes s.memory dest [s.memory source] place = s.memory place :=
          fun place before => storeBytes_outside _ _ _ _ (.inl before)
        simp only [stored] at ran
        split at ran
        · cases ran
          exact ⟨rfl, rfl, kept⟩
        · obtain ⟨karg, child, frame⟩ := ih ran
          refine ⟨karg, child, ?_⟩
          intro place before
          exact (frame place (lt_succ_of_lt before)).trans (kept place before)
    · cases ran

end Pages

/-! A page with strings from offset 64 on, and their addresses in front of them. -/

def layout (args : List (List UInt8)) : List UInt8 := args.flatMap (· ++ [0])

theorem layout_append (front back : List (List UInt8)) :
    layout (front ++ back) = layout front ++ layout back := flatMap_append

theorem layout_snoc (args : List (List UInt8)) (arg : List UInt8) :
    layout (args ++ [arg]) = layout args ++ (arg ++ [0]) := by
  rw [layout_append]
  simp [layout]

/-- What `Copy_StrIn` accepts, and not empty. -/
structure Fits (arg : List UInt8) : Prop where
  clean : 0 ∉ arg
  nonempty : arg ≠ []
  short : arg.length ≤ 254

theorem layout_length (fits : ∀ arg ∈ args, Fits arg) : (layout args).length ≤ 255 * args.length := by
  induction args with
  | nil => exact le_rfl
  | cons arg args ih =>
    have first := (fits arg mem_cons_self).short
    have rest := ih (fun other member => fits other (mem_cons_of_mem _ member))
    have split : layout (arg :: args) = (arg ++ [0]) ++ layout args := rfl
    rw [split, length_append, length_append, length_singleton, length_cons]
    omega

structure Table (memory : Memory) (page view : Nat) (args : List (List UInt8)) : Prop where
  strings : Holds memory (page + 64) (layout args)
  words : ∀ k < args.length,
    loadLE memory (page + 8 + k * 8) 8 = view + 64 + (layout (args.take k)).length

theorem Table.congr {memory other : Memory}
    (table : Table memory page view args) (count : args.length ≤ 7) (fits : ∀ arg ∈ args, Fits arg)
    (agree : ∀ place, page + 8 ≤ place → place < page + PGSIZE → other place = memory place) :
    Table other page view args := by
  have size := layout_length fits
  constructor
  · apply table.strings.congr
    intro place low high
    exact agree place (by omega) (by unfold PGSIZE; omega)
  · intro k bound
    rw [← table.words k bound]
    apply loadLE_congr
    intro place low high
    exact agree place (by omega) (by unfold PGSIZE; omega)

def appendArg (memory : Memory) (page view : Nat) (done : List (List UInt8)) (arg : List UInt8) :
    Memory :=
  storeLE (storeBytes memory (page + 64 + (layout done).length) (arg ++ [0]))
    (page + 8 + done.length * 8) 8 (view + 64 + (layout done).length)

theorem appendArg_outside (memory : Memory) {place : Nat}
    (word : place < page + 8 + done.length * 8 ∨ page + 16 + done.length * 8 ≤ place)
    (string : place < page + 64 + (layout done).length ∨
      page + 64 + (layout done).length + arg.length + 1 ≤ place) :
    appendArg memory page view done arg place = memory place := by
  rw [appendArg, storeLE_outside _ _ _ _ _ (by omega), storeBytes_outside]
  rw [length_append, length_singleton]
  exact string

theorem appendArg_string (memory : Memory) (page view : Nat)
    (arg : List UInt8) (room : done.length < 7) :
    Holds (appendArg memory page view done arg) (page + 64 + (layout done).length) (arg ++ [0]) := by
  apply (storeBytes_holds memory _ _).congr
  intro place low _
  exact storeLE_outside _ _ _ _ _ (by omega)

theorem Table.append (table : Table memory page view done) (arg : List UInt8) (room : done.length < 7)
    (bound : view + 64 + (layout done).length < 2 ^ 64) :
    Table (appendArg memory page view done arg) page view (done ++ [arg]) := by
  constructor
  · rw [layout_snoc, holds_append]
    refine ⟨?_, appendArg_string memory page view arg room⟩
    apply table.strings.congr
    intro place low high
    exact appendArg_outside memory (by omega) (by omega)
  · intro k inside
    rw [length_append, length_singleton] at inside
    by_cases last : k = done.length
    · subst last
      rw [take_left, appendArg, loadLE_storeLE]
      exact bound
    · rw [take_append_of_le_length (by omega), ← table.words k (by omega)]
      apply loadLE_congr
      intro place low high
      exact appendArg_outside memory (by omega) (by omega)

theorem Table.string (table : Table memory page view (done ++ arg :: rest)) :
    Holds memory (page + 64 + (layout done).length) (arg ++ [0]) := by
  have all := table.strings
  have split : layout (done ++ arg :: rest) = layout done ++ ((arg ++ [0]) ++ layout rest) := by
    rw [layout_append]
    rfl
  rw [split, holds_append, holds_append] at all
  exact all.2.1

section

variable {karg child : Nat}

theorem inside_karg (child : Nat) (memory : Memory) (address count : Nat) (low : karg ≤ address)
    (high : address + count ≤ karg + PGSIZE) : (Pages.mk karg child memory).Inside address count :=
  fun k bound => Or.inl ⟨by show karg ≤ address + k; omega, by show address + k < karg + PGSIZE; omega⟩

theorem inside_child (karg : Nat) (memory : Memory) (address count : Nat) (low : child ≤ address)
    (high : address + count ≤ child + PGSIZE) : (Pages.mk karg child memory).Inside address count :=
  fun k bound => Or.inr ⟨by show child ≤ address + k; omega, by show address + k < child + PGSIZE; omega⟩

/-- `kargBuffer` with all arguments, and zero in the slots behind them. -/
structure Staged (memory : Memory) (karg : Nat) (args : List (List UInt8)) : Prop where
  table : Table memory karg karg args
  zeros : ∀ k, args.length ≤ k → k < 7 → loadLE memory (karg + 8 + k * 8) 8 = 0
  fits : ∀ arg ∈ args, Fits arg

theorem Staged.append (staged : Staged memory karg done)
    (room : done.length < 7) (fits : Fits arg) (placed : Placed karg child) :
    Staged (appendArg memory karg karg done arg) karg (done ++ [arg]) := by
  have size := layout_length staged.fits
  have high := placed.kargHigh
  unfold MEM_DIRECTMAP_BASE MEM_DIRECTMAP_LEN PGSIZE at high
  refine ⟨staged.table.append arg room (by omega), ?_, ?_⟩
  · intro k low bound
    rw [length_append, length_singleton] at low
    rw [← staged.zeros k (by omega) bound]
    apply loadLE_congr
    intro place after before
    exact appendArg_outside memory (by omega) (by omega)
  · intro other member
    rcases mem_append.mp member with old | new
    · exact staged.fits other old
    · rwa [mem_singleton.mp new]

theorem Staged.other_page {memory other : Memory}
    (staged : Staged memory karg args) (count : args.length ≤ 7)
    (agree : ∀ place, karg + 8 ≤ place → place < karg + PGSIZE → other place = memory place) :
    Staged other karg args := by
  refine ⟨staged.table.congr count staged.fits agree, ?_, staged.fits⟩
  intro k low bound
  rw [← staged.zeros k low bound]
  apply loadLE_congr
  intro place after before
  exact agree place (by omega) (by unfold PGSIZE; omega)

theorem stageLoop_stages (placed : Placed karg child) {user : User.Memory} {user_argv : Nat}
    (staged : Staged memory karg done)
    (argv : Argv user user_argv done.length rest) (count : done.length + rest.length ≤ 7) :
    ∃ filled, stageLoop user user_argv (8 - done.length) done.length
        (karg + 64 + (layout done).length) ⟨karg, child, memory⟩ = some (0, ⟨karg, child, filled⟩) ∧
      Staged filled karg (done ++ rest) := by
  induction rest generalizing done memory with
  | nil =>
    have null := argv (by simp at count; omega)
    refine ⟨memory, ?_, by rwa [append_nil]⟩
    obtain ⟨left, more⟩ : ∃ left, 8 - done.length = left + 1 := ⟨7 - done.length, by simp at count; omega⟩
    rw [more, stageLoop, null]
    rfl
  | cons arg rest ih =>
    obtain ⟨⟨copied, pointer, nonempty, string⟩, later⟩ := argv
    obtain ⟨_, same, clean, short⟩ := User.copy_StrIn_accepts (by decide) string
    obtain rfl := append_cancel_right same
    have fits : Fits arg := ⟨clean, nonempty, by omega⟩
    rw [length_cons] at count
    have room : done.length < 7 := by omega
    have size := layout_length staged.fits
    have next := staged.append room fits placed
    have length : (done ++ [arg]).length = done.length + 1 := by simp
    obtain ⟨filled, ran, full⟩ := ih next (by rw [length]; exact later) (by rw [length]; omega)
    refine ⟨filled, ?_, by rwa [append_assoc] at full⟩
    rw [← ran]
    obtain ⟨left, more⟩ : ∃ left, 8 - done.length = left + 1 := ⟨7 - done.length, by omega⟩
    have stored : (Pages.mk karg child memory).storeBytes (karg + 64 + (layout done).length)
        (arg ++ [0]) = some ⟨karg, child, storeBytes memory (karg + 64 + (layout done).length)
          (arg ++ [0])⟩ :=
      if_pos (inside_karg _ _ _ _ (by omega) (by simp [PGSIZE]; omega))
    have linked : (Pages.mk karg child (storeBytes memory (karg + 64 + (layout done).length)
        (arg ++ [0]))).storeWord (karg + 8 + done.length * 8) (karg + 64 + (layout done).length) =
        some ⟨karg, child, appendArg memory karg karg done arg⟩ :=
      if_pos (inside_karg _ _ _ _ (by omega) (by unfold PGSIZE; omega))
    have measured : (Pages.mk karg child (appendArg memory karg karg done arg)).strlen
        (karg + 64 + (layout done).length) = some arg.length := by
      unfold Pages.strlen
      rw [cString_eq (appendArg_string memory karg karg arg room) clean ?_ (by unfold Pages.limit PGSIZE; omega)]
      · rfl
      · intro k bound
        exact inside_karg child _ (karg + 64 + (layout done).length) (arg.length + 1)
          (by omega) (by unfold PGSIZE; omega) k (by omega)
    have place : karg + 64 + (layout done).length + arg.length + 1 =
        karg + 64 + (layout (done ++ [arg])).length := by
      rw [layout_snoc]
      simp
      omega
    rw [more, stageLoop]
    simp only [copied, ne_eq, not_true_eq_false, ↓reduceIte, pointer, string, stored, linked, measured]
    rw [place, length, show left = 8 - (done.length + 1) by omega]

theorem buildLoop_builds (placed : Placed karg child)
    (whole : args = done ++ rest) (staged : Staged memory karg args)
    (built : Table memory child argPageUserVA done) (count : args.length ≤ 7) :
    ∃ filled, buildLoop (8 - done.length) done.length (layout done).length done.length
        ⟨karg, child, memory⟩ =
      buildLoop (8 - args.length) args.length (layout args).length args.length ⟨karg, child, filled⟩ ∧
      Staged filled karg args ∧ Table filled child argPageUserVA args := by
  induction rest generalizing done memory with
  | nil =>
    rw [append_nil] at whole
    subst whole
    exact ⟨memory, rfl, staged, built⟩
  | cons arg rest ih =>
    subst whole
    have fits : Fits arg := staged.fits arg (by simp)
    have doneFits : ∀ other ∈ done, Fits other := fun other member =>
      staged.fits other (mem_append_left _ member)
    have size := layout_length doneFits
    have short := fits.short
    simp only [length_append, length_cons] at count
    have room : done.length < 7 := by omega
    have apart := placed.apart
    have low := placed.kargLow
    unfold MEM_DIRECTMAP_BASE at low
    unfold PGSIZE at apart
    have string := staged.table.string
    have word := staged.table.words done.length (by simp)
    rw [take_left] at word
    have next := built.append arg room (by unfold argPageUserVA MEM_USERSPACE_STKTOP PGSIZE; omega)
    have kept : Staged (appendArg memory child argPageUserVA done arg) karg (done ++ arg :: rest) := by
      refine staged.other_page (by simp; omega) ?_
      intro place after before
      unfold PGSIZE at before
      exact appendArg_outside memory (by omega) (by omega)
    have length : (done ++ [arg]).length = done.length + 1 := by simp
    obtain ⟨filled, ran, full⟩ := ih (by simp) kept next
    refine ⟨filled, ?_, full⟩
    rw [← ran]
    obtain ⟨left, more⟩ : ∃ left, 8 - done.length = left + 1 := ⟨7 - done.length, by omega⟩
    have readable : ∀ k ≤ arg.length,
        (Pages.mk karg child memory).Mapped (karg + 64 + (layout done).length + k) := by
      intro k bound
      exact inside_karg child memory (karg + 64 + (layout done).length)
        (arg.length + 1) (by omega) (by unfold PGSIZE; omega) k (by omega)
    have writable : ∀ k ≤ arg.length,
        (Pages.mk karg child memory).Mapped (child + 64 + (layout done).length + k) := by
      intro k bound
      exact inside_child karg memory (child + 64 + (layout done).length)
        (arg.length + 1) (by omega) (by unfold PGSIZE; omega) k (by omega)
    have found : (Pages.mk karg child memory).loadWord (karg + 8 + done.length * 8) =
        some (karg + 64 + (layout done).length) := by
      unfold Pages.loadWord
      rw [if_pos (inside_karg _ _ _ _ (by omega) (by unfold PGSIZE; omega)), word]
    have measured : (Pages.mk karg child memory).strlen (karg + 64 + (layout done).length) =
        some arg.length := by
      unfold Pages.strlen
      rw [cString_eq string fits.clean readable (by unfold Pages.limit PGSIZE; omega)]
      rfl
    have copied : (Pages.mk karg child memory).strcpy (child + 64 + (layout done).length)
        (karg + 64 + (layout done).length) = some ⟨karg, child, storeBytes memory
          (child + 64 + (layout done).length) (arg ++ [0])⟩ :=
      Pages.strcpyLoop_eq string fits.clean readable writable (by omega)
        (by unfold Pages.limit PGSIZE; omega)
    have linked : (Pages.mk karg child (storeBytes memory (child + 64 + (layout done).length)
        (arg ++ [0]))).storeWord (child + 8 + done.length * 8)
          (argPageUserVA + 64 + (layout done).length) =
        some ⟨karg, child, appendArg memory child argPageUserVA done arg⟩ :=
      if_pos (inside_child _ _ _ _ (by omega) (by unfold PGSIZE; omega))
    have place : (layout done).length + arg.length + 1 = (layout (done ++ [arg])).length := by
      rw [layout_snoc]
      simp
      omega
    have present : karg + 64 + (layout done).length ≠ 0 := by omega
    rw [more, buildLoop_succ]
    simp only [found, present, measured, copied, linked, ↓reduceIte]
    rw [place, length, show left = 8 - (done.length + 1) by omega]

end

theorem mapM_eq_some_iff {α β : Type} {f : α → Option β} {list : List α} {results : List β} :
    list.mapM f = some results ↔ list.map f = results.map some := by
  induction list generalizing results with
  | nil => cases results <;> simp
  | cons first rest ih =>
    cases results with
    | nil => simp [mapM_cons, bind_eq_some_iff]
    | cons result results => simp [mapM_cons, bind_eq_some_iff, ← ih]

theorem mapM_range_eq_some {β : Type} {f : Nat → Option β} {results : List β} :
    (range count).mapM f = some results ↔ count = results.length ∧
      ∀ i (inside : i < results.length), f i = some results[i] := by
  rw [mapM_eq_some_iff]
  constructor
  · intro same
    have length : count = results.length := by simpa using congrArg length same
    refine ⟨length, ?_⟩
    intro i inside
    have here := congrArg (fun list => list[i]?) same
    simpa [inside, length] using here
  · rintro ⟨rfl, each⟩
    apply ext_getElem
    · simp
    · intro i _ inside
      simp only [getElem_map, getElem_range]
      exact each i (by simpa using inside)

theorem startArgs_eq_some :
    startArgs s = some args ↔ loadLE s.memory s.child 8 = args.length ∧
      ∀ i (inside : i < args.length), argString s i = some args[i] := mapM_range_eq_some

theorem Table.argString {karg child : Nat}
    (table : Table memory child argPageUserVA args) (count : args.length ≤ 7)
    (fits : ∀ arg ∈ args, Fits arg) (inside : i < args.length) :
    argString ⟨karg, child, memory⟩ i = some args[i] := by
  have whole : args.take i ++ args[i] :: args.drop (i + 1) = args := by
    rw [getElem_cons_drop, take_append_drop]
  have fit := fits _ (getElem_mem inside)
  have short := fit.short
  have size : (layout (args.take i)).length ≤ 255 * (args.take i).length :=
    layout_length (fun arg member => fits arg (mem_of_mem_take member))
  rw [length_take_of_le (le_of_lt inside)] at size
  have split : Table memory child argPageUserVA (args.take i ++ args[i] :: args.drop (i + 1)) := by
    rwa [whole]
  have string := split.string
  unfold Spawn.argString
  simp only [table.words i inside]
  rw [if_pos ⟨by omega, by unfold PGSIZE; omega⟩, Nat.add_assoc argPageUserVA, Nat.add_sub_cancel_left,
    ← Nat.add_assoc]
  refine cString_eq string fit.clean ?_ (by unfold Pages.limit PGSIZE; omega)
  intro k bound
  exact ⟨by omega, by unfold PGSIZE; omega⟩

section

variable {pages : Pages} {call : Call} {args : List (List UInt8)}

theorem staged_clearPage (memory : Memory) (karg : Nat) : Staged (clearPage memory karg) karg [] := by
  refine ⟨⟨?_, ?_⟩, ?_, ?_⟩
  · intro index inside
    cases inside
  · intro k inside
    cases inside
  · intro k _ bound
    rw [loadLE_bytes _ _ _ 0, zero_mod]
    intro index inside
    rw [Nat.zero_div]
    exact copyBytes_inside _ _ _ _ _ _ (by omega) (by unfold PGSIZE; omega)
  · intro arg member
    cases member

theorem syscall_Spawn_eq (valid : call.Valid args) :
    syscall_Spawn call.program pages call.user call.user_path call.user_argv =
      match stageLoop call.user call.user_argv 8 0 (pages.karg + 64)
        { pages with memory := clearPage pages.memory pages.karg } with
      | none => none
      | some (ret, t) =>
        if ret ≠ 0 then some (SYSCALL_PACK ret 0, none)
        else (buildArgs t).map (fun u => (SYSCALL_PACK 0 call.program.pid, some u)) := by
  obtain ⟨exeName, copied, opens, checks⟩ := valid.path
  simp [syscall_Spawn, copied, opens, checks]

theorem built_of_valid (placed : Placed pages.karg pages.child) (valid : call.Valid args)
    (count : args.length ≤ 7) :
    ∃ staged filled, syscall_Spawn call.program pages call.user call.user_path call.user_argv =
        (buildArgs staged).map (fun u => (SYSCALL_PACK 0 call.program.pid, some u)) ∧
      buildLoop 8 0 0 0 staged = buildLoop (8 - args.length) args.length (layout args).length args.length
        ⟨pages.karg, pages.child, filled⟩ ∧
      Staged filled pages.karg args ∧ Table filled pages.child argPageUserVA args := by
  have room : ([] : List (List UInt8)).length + args.length ≤ 7 := by simpa using count
  obtain ⟨memory, staging, staged⟩ :=
    stageLoop_stages placed (staged_clearPage pages.memory pages.karg) valid.argv room
  have empty : Table memory pages.child argPageUserVA [] := by
    refine ⟨?_, ?_⟩
    · intro index inside
      cases inside
    · intro k inside
      cases inside
  obtain ⟨filled, building, full, table⟩ :=
    buildLoop_builds placed (nil_append args).symm staged empty count
  refine ⟨⟨pages.karg, pages.child, memory⟩, filled, ?_, building, full, table⟩
  rw [syscall_Spawn_eq valid]
  have ran : stageLoop call.user call.user_argv 8 0 (pages.karg + 64)
      { pages with memory := clearPage pages.memory pages.karg } =
        some (0, ⟨pages.karg, pages.child, memory⟩) := staging
  rw [ran]
  rfl

theorem round_trip_of_six (placed : Placed pages.karg pages.child) (valid : call.Valid args)
    (count : args.length ≤ 6) : RoundTrip pages call args := by
  obtain ⟨staged, filled, spawned, building, full, table⟩ := built_of_valid placed valid (by omega)
  -- The slot behind the last argument is zero, and ends the loop.
  obtain ⟨left, more⟩ : ∃ left, 8 - args.length = left + 1 := ⟨7 - args.length, by omega⟩
  have slot : (Pages.mk pages.karg pages.child filled).loadWord (pages.karg + 8 + args.length * 8) =
      some 0 := by
    unfold Pages.loadWord
    rw [if_pos (inside_karg _ _ _ _ (by omega) (by unfold PGSIZE; omega)),
      full.zeros args.length le_rfl (by omega)]
  have ended : buildLoop (8 - args.length) args.length (layout args).length args.length
      ⟨pages.karg, pages.child, filled⟩ = some (args.length, ⟨pages.karg, pages.child, filled⟩) := by
    rw [more, buildLoop_succ, slot]
    rfl
  have stored : (Pages.mk pages.karg pages.child filled).storeWord pages.child args.length =
      some ⟨pages.karg, pages.child, storeLE filled pages.child 8 args.length⟩ :=
    if_pos (inside_child _ _ _ _ (by omega) (by unfold PGSIZE; omega))
  have done : buildArgs staged =
      some ⟨pages.karg, pages.child, storeLE filled pages.child 8 args.length⟩ := by
    unfold buildArgs
    rw [building, ended]
    exact stored
  refine ⟨_, by rw [spawned, done]; rfl, ?_⟩
  rw [startArgs_eq_some]
  constructor
  · exact loadLE_storeLE _ _ _ _ (by omega)
  · intro i inside
    refine Table.argString ?_ (by omega) full.fits inside
    refine table.congr (by omega) full.fits ?_
    intro place low _
    exact storeLE_outside _ _ _ _ _ (.inr low)

theorem buildLoop_pass {left i offset argc count : Nat}
    (ran : buildLoop (left + 1) i offset argc s = some (count, t)) :
    s.loadWord (s.karg + 8 + i * 8) = some 0 ∧ count = argc ∨
      ∃ length u, length ≤ 2 * PGSIZE ∧ u.child = s.child ∧
        (∀ place, place < s.child + 64 ∨ s.child + 8 + i * 8 ≤ place ∧ place < s.child + 16 + i * 8 →
          u.memory place =
            storeLE s.memory (s.child + 8 + i * 8) 8 (argPageUserVA + 64 + offset) place) ∧
        buildLoop left (i + 1) (offset + length + 1) (argc + 1) u = some (count, t) := by
  rw [buildLoop_succ] at ran
  cases slot : s.loadWord (s.karg + 8 + i * 8) with
  | none => simp [slot] at ran
  | some kStr =>
    simp only [slot] at ran
    by_cases null : kStr = 0
    · rw [if_pos null] at ran
      cases ran
      exact .inl ⟨by rw [null], rfl⟩
    · rw [if_neg null] at ran
      cases measured : s.strlen kStr with
      | none => simp [measured] at ran
      | some length =>
        cases copied : s.strcpy (s.child + 64 + offset) kStr with
        | none => simp [measured, copied] at ran
        | some v =>
          obtain ⟨_, child, frame⟩ := Pages.strcpyLoop_frame copied
          simp only [measured, copied] at ran
          cases linked : v.storeWord (v.child + 8 + i * 8) (argPageUserVA + 64 + offset) with
          | none => simp [linked] at ran
          | some u =>
            simp only [linked] at ran
            obtain ⟨_, rfl⟩ := Pages.write_eq_some.mp linked
            obtain ⟨string, found, rfl⟩ := map_eq_some_iff.mp measured
            refine .inr ⟨string.length, ⟨v.karg, v.child, storeLE v.memory (v.child + 8 + i * 8) 8
              (argPageUserVA + 64 + offset)⟩, le_of_lt_succ (cString_length found), child, ?_, ran⟩
            intro place near
            by_cases inside : s.child + 8 + i * 8 ≤ place ∧ place < s.child + 8 + i * 8 + 8
            · simp only [child, storeLE, inside, and_self, ↓reduceIte]
            · simp only [child, storeLE, inside, ↓reduceIte]
              exact frame place (by omega)

theorem buildLoop_tail (total : i + left = 8) (started : 0 < i)
    (bounded : offset ≤ i * (2 * PGSIZE + 1)) (last : left = 0 → ∃ last ≤ 7 * (2 * PGSIZE + 1),
      loadLE s.memory (s.child + 64) 8 = argPageUserVA + 64 + last)
    (ran : buildLoop left i offset i s = some (8, t)) :
    t.child = s.child ∧ loadLE t.memory (s.child + 8) 8 = loadLE s.memory (s.child + 8) 8 ∧
      ∃ last ≤ 7 * (2 * PGSIZE + 1), loadLE t.memory (s.child + 64) 8 = argPageUserVA + 64 + last := by
  induction left generalizing i offset s with
  | zero =>
    rw [buildLoop_zero] at ran
    cases ran
    exact ⟨rfl, rfl, last rfl⟩
  | succ left ih =>
    rcases buildLoop_pass ran with ⟨_, ended⟩ | ⟨length, u, short, child, memory, rest⟩
    · omega
    · have first : loadLE u.memory (s.child + 8) 8 = loadLE s.memory (s.child + 8) 8 := by
        rw [loadLE_congr u.memory _ (s.child + 8) 8 (fun place _ _ => memory place (by omega))]
        exact loadLE_storeLE_apart _ _ _ _ _ _ (by omega)
      have eighth : left = 0 → ∃ last ≤ 7 * (2 * PGSIZE + 1),
          loadLE u.memory (u.child + 64) 8 = argPageUserVA + 64 + last := by
        intro final
        obtain rfl : i = 7 := by omega
        refine ⟨offset, bounded, ?_⟩
        rw [child, loadLE_congr u.memory _ (s.child + 64) 8 (fun place _ _ => memory place (by omega))]
        refine loadLE_storeLE _ _ _ _ ?_
        unfold argPageUserVA MEM_USERSPACE_STKTOP
        unfold PGSIZE at *
        omega
      have grown : offset + length + 1 ≤ (i + 1) * (2 * PGSIZE + 1) := by
        rw [add_mul]
        omega
      obtain ⟨same, kept, found⟩ := ih (by omega) (succ_pos i) grown eighth rest
      rw [child] at same kept found
      exact ⟨same, kept.trans first, found⟩

theorem buildLoop_overwrites (ran : buildLoop 8 0 0 0 s = some (8, t)) :
    loadLE t.memory (t.child + 8) 8 = argPageUserVA + 64 ∧
      ∃ last ≤ 7 * (2 * PGSIZE + 1), loadLE t.memory (t.child + 64) 8 = argPageUserVA + 64 + last := by
  rcases buildLoop_pass ran with ⟨_, ended⟩ | ⟨length, u, short, child, memory, rest⟩
  · cases ended
  · have first : loadLE u.memory (u.child + 8) 8 = argPageUserVA + 64 := by
      rw [child, loadLE_congr u.memory _ (s.child + 8) 8 (fun place _ _ => memory place (by omega))]
      exact loadLE_storeLE _ _ _ _ (by decide)
    obtain ⟨same, kept, found⟩ := buildLoop_tail (by decide) one_pos (by omega)
      (fun none => by cases none) rest
    rw [same]
    exact ⟨kept.trans first, found⟩

theorem buildLoop_argc {left i offset argc count : Nat}
    (ran : buildLoop left i offset argc s = some (count, t)) : count ≤ argc + left := by
  induction left generalizing i offset argc s with
  | zero =>
    rw [buildLoop_zero] at ran
    cases ran
    exact le_rfl
  | succ left ih =>
    rcases buildLoop_pass ran with ⟨_, ended⟩ | ⟨_, _, _, _, _, rest⟩
    · omega
    · have := ih rest
      omega

theorem buildLoop_of_decoded {staged t : Pages} (built : buildArgs staged = some t)
    (decoded : startArgs t = some args) :
    ∃ u, buildLoop 8 0 0 0 staged = some (args.length, u) ∧
      t = { u with memory := storeLE u.memory u.child 8 args.length } := by
  unfold buildArgs at built
  generalize looped : buildLoop 8 0 0 0 staged = result at built
  cases result with
  | none => cases built
  | some pair =>
    obtain ⟨argc, u⟩ := pair
    obtain ⟨_, rfl⟩ := Pages.write_eq_some.mp built
    have fewer := buildLoop_argc looped
    have count := (startArgs_eq_some.mp decoded).1
    rw [loadLE_storeLE _ _ _ _ (by omega)] at count
    rw [← count]
    exact ⟨u, rfl, rfl⟩

theorem not_round_trip_of_seven (placed : Placed pages.karg pages.child) (valid : call.Valid args)
    (count : args.length = 7) : ¬ RoundTrip pages call args := by
  rintro ⟨t, spawned, decoded⟩
  obtain ⟨staged, filled, result, building, full, _⟩ := built_of_valid placed valid (by omega)
  rw [result] at spawned
  obtain ⟨u, built, same⟩ := map_eq_some_iff.mp spawned
  obtain rfl : u = t := some.inj (congrArg Prod.snd same)
  obtain ⟨v, looped, _⟩ := buildLoop_of_decoded built decoded
  rw [building, count] at looped
  rcases buildLoop_pass looped with ⟨ended, _⟩ | ⟨_, _, _, _, _, rest⟩
  · have slot : (Pages.mk pages.karg pages.child filled).loadWord (pages.karg + 8 + 7 * 8) =
        some (loadLE filled (pages.karg + 64) 8) :=
      if_pos (inside_karg _ _ _ _ (by omega) (by unfold PGSIZE; omega))
    have null := some.inj (slot.symm.trans ended)
    cases args with
    | nil => cases count
    | cons arg args =>
      have fit := full.fits arg mem_cons_self
      have whole : Table filled pages.karg pages.karg ([] ++ arg :: args) := full.table
      have string := whole.string
      cases arg with
      | nil => exact fit.nonempty rfl
      | cons byte bytes =>
        have first : filled (pages.karg + 64) = byte := (holds_cons.mp string).1
        rw [loadLE, first] at null
        have zero : byte = 0 := UInt8.toNat_inj.mp (show byte.toNat = 0 by omega)
        exact fit.clean (by rw [zero]; exact mem_cons_self)
  · rw [buildLoop_zero] at rest
    cases rest

theorem first_string_lost {argc last : Nat}
    (pointer : loadLE t.memory (t.child + 8) 8 = argPageUserVA + 64)
    (bounded : last ≤ 7 * (2 * PGSIZE + 1))
    (word : loadLE t.memory (t.child + 64) 8 = argPageUserVA + 64 + last) :
    argString { t with memory := storeLE t.memory t.child 8 argc } 0 ≠ some (0x61 :: 0xE0 :: tail) := by
  intro found
  have start : loadLE (storeLE t.memory t.child 8 argc) (t.child + 8 + 0 * 8) 8 = argPageUserVA + 64 :=
    (loadLE_storeLE_apart _ _ _ _ _ _ (by omega)).trans pointer
  unfold argString at found
  simp only [start] at found
  rw [if_pos ⟨by omega, by unfold PGSIZE; omega⟩, Nat.add_sub_cancel_left] at found
  have second : storeLE t.memory t.child 8 argc (t.child + 64 + 1) = 0xE0 :=
    (holds_cons.mp (holds_cons.mp (cString_holds found)).2).1
  rw [storeLE_outside _ _ _ _ _ (by omega)] at second
  rw [loadLE, loadLE, second, show (0xE0 : UInt8).toNat = 0xE0 from rfl] at word
  have low := (t.memory (t.child + 64)).toNat_lt
  unfold argPageUserVA MEM_USERSPACE_STKTOP at word
  unfold PGSIZE at word bounded
  omega

theorem not_round_trip_of_eight
    (valid : call.Valid ((0x61 :: 0xE0 :: tail) :: rest)) (count : rest.length = 7) :
    ¬ RoundTrip pages call ((0x61 :: 0xE0 :: tail) :: rest) := by
  rintro ⟨t, spawned, decoded⟩
  rw [syscall_Spawn_eq valid] at spawned
  generalize stageLoop _ _ _ _ _ _ = staging at spawned
  cases staging with
  | none => cases spawned
  | some pair =>
    obtain ⟨ret, staged⟩ := pair
    simp only at spawned
    split at spawned
    · simp at spawned
    · obtain ⟨u, built, same⟩ := map_eq_some_iff.mp spawned
      obtain rfl : u = t := some.inj (congrArg Prod.snd same)
      obtain ⟨v, looped, rfl⟩ := buildLoop_of_decoded built decoded
      rw [length_cons, count] at looped
      obtain ⟨pointer, last, bounded, word⟩ := buildLoop_overwrites looped
      have first := (startArgs_eq_some.mp decoded).2 0 (succ_pos _)
      exact first_string_lost pointer bounded word first

end

def sampleCall (count : Nat) : Call where
  program := ⟨fun _ => true, fun _ => true, 2⟩
  user address :=
    if address = 0x1000 then some 0x70
    else if address = 0x2000 then some 0x61
    else if address = 0x2001 then some 0xE0
    else if 0x3000 ≤ address ∧ address < 0x3000 + 8 * count ∧ address % 8 = 1 then some 0x20
    else some 0
  user_path := 0x1000
  user_argv := 0x3000

def sampleArgs (count : Nat) : List (List UInt8) := List.replicate count [0x61, 0xE0]

theorem sampleCall_valid (many : 6 ≤ count) (limit : count ≤ 8) :
    (sampleCall count).Valid (sampleArgs count) := by
  refine ⟨⟨[0x70, 0], ?_, rfl, rfl⟩, ?_⟩
  · interval_cases count <;> decide +kernel
  · show Argv (sampleCall count).user 0x3000 0 (sampleArgs count)
    interval_cases count <;> decide +kernel

/-- Exactly up to six arguments always arrive. -/
theorem spawn_args_round_trip (pages : Pages) (placed : Placed pages.karg pages.child) {count : Nat}
    (limit : count ≤ 8) :
    (∀ call args, Call.Valid call args → args.length = count → RoundTrip pages call args) ↔
      count ≤ 6 := by
  constructor
  · intro always
    by_contra more
    have valid := sampleCall_valid (by omega) limit
    have trip := always _ _ valid (by simp [sampleArgs])
    obtain rfl | rfl : count = 7 ∨ count = 8 := by omega
    · exact not_round_trip_of_seven placed valid rfl trip
    · exact not_round_trip_of_eight valid rfl trip
  · intro few call args valid length
    exact round_trip_of_six placed valid (by omega)

def samplePages : Pages := ⟨0xFFFF800001234000, 0xFFFF800001999000, fun _ => 0⟩

theorem samplePages_placed : Placed samplePages.karg samplePages.child := by
  constructor <;> decide

theorem spawn_args_round_trip_six : RoundTrip samplePages (sampleCall 6) (sampleArgs 6) :=
  (spawn_args_round_trip samplePages samplePages_placed (by decide)).mpr le_rfl (sampleCall 6)
    (sampleArgs 6) (sampleCall_valid (by decide) (by decide)) rfl

/-- Seven arguments make the kernel follow a pointer made of string bytes; eight reach the
child with another first argument. -/
theorem spawn_args_lost :
    (sampleCall 7).Valid (sampleArgs 7) ∧ (sampleCall 8).Valid (sampleArgs 8) ∧
      syscall_Spawn (sampleCall 7).program samplePages (sampleCall 7).user 0x1000 0x3000 = none ∧
      ((syscall_Spawn (sampleCall 8).program samplePages (sampleCall 8).user 0x1000 0x3000).bind
        (fun result => result.2.bind (fun t => argString t 0))) ≠ some [0x61, 0xE0] := by
  refine ⟨sampleCall_valid (by decide) (by decide), sampleCall_valid (by decide) (by decide), ?_, ?_⟩
  · exact isNone_iff_eq_none.mp (by decide +kernel)
  · decide +kernel

end BoringOs.Spawn
