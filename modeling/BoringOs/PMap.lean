import BoringOs.PAlloc
import BoringOs.Lib.Radix

/-! The page tables of `sys/amd64/pmap.c`. `PMapLookupEntry` returns the place of an entry. The
memory behind a page number that no table has is there all the same, so an entry that does not name
a table is followed like any other. -/

namespace BoringOs.PMap

open PAlloc

def PTE_P : Nat := 0x1
def PTE_W : Nat := 0x2
def PTE_U : Nat := 0x4
def PTE_PS : Nat := 0x80
def PTE_NX : Nat := 0x8000000000000000

def PGMASK : Nat := 0xFFF
def LARGE_PGMASK : Nat := 0x1FFFFF
def PGNUMMASK : Nat := 0xFFFFFFFFFFFFF000
def PGIDXMASK : Nat := 511

def PGSHIFT : Nat := 12
def LARGE_PGSHIFT : Nat := 21
def HUGE_PGSHIFT : Nat := 30
def ROOT_PGSHIFT : Nat := 39

def LARGE_PGSIZE : Nat := 2 ^ 21
def HUGE_PGSIZE : Nat := 2 ^ 30

def PAGETABLE_ENTRIES : Nat := 512

/-- `~(PGMASK | PTE_NX)` and `~(LARGE_PGMASK | PTE_NX)`. -/
def FRAMEMASK : Nat := 0x7FFFFFFFFFFFF000
def LARGE_FRAMEMASK : Nat := 0x7FFFFFFFFFE00000

/-- The index of an address in a table whose entries span `2 ^ shift` bytes. -/
def index (va shift : Nat) : Nat := (va >>> shift) &&& PGIDXMASK

/-- The table that `DMPA2VA(pte & PGNUMMASK)` points to. -/
def tableOf (pte : Nat) : Nat := (pte &&& PGNUMMASK) / PGSIZE

def store (table i pte : Nat) (s : Frames) : Frames :=
  { s with memory := Function.update s.memory table (Function.update (s.memory table) i pte) }

def pMapAllocPageTable (s : Frames) : Option (Nat × Frames) := do
  let (pgtbl, t) ← pAlloc_AllocPage s
  return (pgtbl, { t with memory := Function.update t.memory pgtbl (fun _ => 0) })

/-- A level of `PMapLookupEntry`: the table below an entry, which is made if there is none. -/
def pMapDescend (table i : Nat) (s : Frames) : Option (Nat × Frames) :=
  let pte := s.memory table i
  if pte = 0 then do
    let (newtable, t) ← pMapAllocPageTable s
    let pte := newtable * PGSIZE ||| PTE_P ||| PTE_W ||| PTE_U
    return (tableOf pte, store table i pte t)
  else some (tableOf pte, s)

def pMapLookupEntry (root va size : Nat) (s : Frames) : Option ((Nat × Nat) × Frames) := do
  let (table, s) ← pMapDescend root (index va ROOT_PGSHIFT) s
  if size = HUGE_PGSIZE then
    return ((table, index va HUGE_PGSHIFT), s)
  let (table, s) ← pMapDescend table (index va HUGE_PGSHIFT) s
  if size = LARGE_PGSIZE then
    return ((table, index va LARGE_PGSHIFT), s)
  let (table, s) ← pMapDescend table (index va LARGE_PGSHIFT) s
  if size = PGSIZE then
    return ((table, index va PGSHIFT), s)
  else none

/-- The `int` product `PGSIZE * i`, converted for an addition to a `uint64_t`. -/
def scaled (i : Nat) : Nat := (toInt32 (PGSIZE * i) % word64).toNat

/-- How often the body of a loop over `int i` with `i < pages` runs: the conversion of `i` to
`uint64_t` ends it when `i` overflows. -/
def passes (pages : Nat) : Nat := min pages (2 ^ 31)

/-- The loop of `PMap_Map` and `PMap_AllocMap`: `put` is called for each page with the place
of its entry. -/
def eachPage (root virt : Nat) (put : Nat → Nat → Nat → Frames → Option Frames) :
    Nat → Nat → Frames → Option Frames
  | 0, _, s => some s
  | left + 1, i, s => do
      let ((table, l), t) ← pMapLookupEntry root (add64 virt (scaled i)) PGSIZE s
      let u ← put i table l t
      eachPage root virt put left (i + 1) u

def putMap (phys flags i table l : Nat) (s : Frames) : Option Frames :=
  some (store table l (add64 phys (scaled i) ||| PTE_P ||| PTE_W ||| PTE_U ||| flags) s)

/-- `PMap_Map`. It does not return false: `PAlloc_AllocPage` does not return `NULL`. -/
def pMap_Map (root phys virt pages flags : Nat) (s : Frames) : Option Frames :=
  eachPage root virt (putMap phys flags) (passes pages) 0 s

def putAlloc (flags _i table l : Nat) (s : Frames) : Option Frames :=
  if s.memory table l &&& PTE_P ≠ PTE_P then do
    let (pg, t) ← pAlloc_AllocPage s
    return store table l (pg * PGSIZE ||| PTE_P ||| PTE_U ||| flags) t
  else some s

def pMap_AllocMap (root virt len flags : Nat) (s : Frames) : Option Frames :=
  let pages := add64 len (PGSIZE - 1) / PGSIZE
  if virt &&& PGMASK = 0 then eachPage root virt (putAlloc flags) (passes pages) 0 s
  else none

def pMap_Translate (root va : Nat) (s : Frames) : Option Nat :=
  let pte := s.memory root (index va ROOT_PGSHIFT)
  if pte = 0 then none
  else
    let table := tableOf pte
    let pte := s.memory table (index va HUGE_PGSHIFT)
    if pte = 0 then none
    else
      let table := tableOf pte
      let pte := s.memory table (index va LARGE_PGSHIFT)
      if pte &&& PTE_PS = PTE_PS then some ((pte &&& LARGE_FRAMEMASK) + (va &&& LARGE_PGMASK))
      else if pte = 0 then none
      else
        let table := tableOf pte
        some ((s.memory table (index va PGSHIFT) &&& FRAMEMASK) + (va &&& PGMASK))

def pMap_NewAS (systemRoot : Nat) (s : Frames) : Option ((Nat × Nat) × Frames) := do
  let (as, t) ← pAlloc_AllocPage s
  let (root, u) ← pAlloc_AllocPage t
  return ((as, root), { u with
    memory := Function.update u.memory root
      (fun i => if i < PAGETABLE_ENTRIES / 2 then 0 else u.memory systemRoot i) })

theorem index_eq (va shift : Nat) : index va shift = va / 2 ^ shift % 512 := by
  unfold index PGIDXMASK
  rw [Nat.shiftRight_eq_div_pow]
  exact Nat.and_two_pow_sub_one_eq_mod _ 9

theorem or_low {page low : Nat} (small : low < PGSIZE) : page * PGSIZE ||| low = page * PGSIZE + low := by
  have := Nat.two_pow_add_eq_or_of_lt (i := 12) small page
  rw [mul_comm page]
  exact this.symm

theorem tableOf_eq {pte : Nat} (small : pte < word64) : tableOf pte = pte / PGSIZE := by
  have mask : PGNUMMASK = (2 ^ 52 - 1) <<< 12 := by decide
  unfold tableOf
  rw [mask, and_high_mask small]
  exact Nat.mul_div_cancel _ (by decide)

/-- The entry that `PMapLookupEntry` makes for a table. -/
def tableEntry (page : Nat) : Nat := page * PGSIZE ||| PTE_P ||| PTE_W ||| PTE_U

theorem tableEntry_eq (page : Nat) : tableEntry page = page * PGSIZE + 7 := by
  unfold tableEntry
  rw [Nat.or_assoc, Nat.or_assoc]
  exact or_low (by decide)

theorem scaled_of_lt {i : Nat} (small : i < 2 ^ 19) : scaled i = i * PGSIZE := by
  unfold scaled
  have bound : PGSIZE * i < 2 ^ 31 := by
    unfold PGSIZE
    omega
  rw [toInt32_of_lt bound]
  unfold word64 PGSIZE at *
  omega

end BoringOs.PMap
