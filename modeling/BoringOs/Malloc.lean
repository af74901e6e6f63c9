import BoringOs.Errno
import BoringOs.Lib.ByteMemory
import BoringOs.Lib.Linked
import BoringOs.Lib.Runs
import Mathlib.Tactic.IntervalCases

/-! The heap of `lib/libc/malloc.c`: twelve pools of cells of `64 * 2 ^ idx` bytes, each with a
header of 16 bytes in front of its block. The heap lives in a byte memory that the program writes
too. `mmap` returns the address it was asked for or `NULL`. -/

namespace BoringOs.Malloc

open ByteMemory LinkedList Runs Function List Option

def HEAP_MAGIC : Nat := 0x8051
/-- `sizeof(Header)`. -/
def HEADER_SIZE : Nat := 16
def HEAP_MAX_POOLSIZE : Nat := 128 * 1024 - HEADER_SIZE
def HEAP_POOLS : Nat := 12
/-- The cells by which a pool grows. -/
def HEAP_INCREMENT : Nat := 64

/-- The bases of the pools, 256 MiB apart. -/
def base (idx : Nat) : Nat := 0x400000000 + idx * 0x10000000

/-- The bytes of a cell of a pool. -/
def bucketSz (idx : Nat) : Nat := (1 <<< idx) * 64

structure HeapPool where
  free : Nat
  top : Nat

/-- `live` are the blocks that the program has, with the sizes it asked for. -/
structure State where
  pool : Nat → HeapPool
  largeTop : Nat
  memory : Memory
  live : List (Nat × Nat)

def magicAt (memory : Memory) (hdr : Nat) : Nat := loadLE memory hdr 2

def sizeAt (memory : Memory) (hdr : Nat) : Nat := loadLE memory (hdr + 4) 4

def nextAt (memory : Memory) (hdr : Nat) : Nat := loadLE memory (hdr + 8) 8

def setNext (memory : Memory) (hdr next : Nat) : Memory := storeLE memory (hdr + 8) 8 next

def setHeader (memory : Memory) (hdr size next : Nat) : Memory :=
  setNext (storeLE (storeLE (storeLE memory hdr 2 HEAP_MAGIC) (hdr + 2) 2 0) (hdr + 4) 4 size) hdr next

def sizeToIdxLoop (sz : Nat) : Nat → Nat → Nat → Nat
  | 0, i, _ => i
  | left + 1, i, bucketSz =>
    if sz ≤ (bucketSz + word64 - HEADER_SIZE) % word64 then i
    else sizeToIdxLoop sz left (i + 1) (mul64 bucketSz 2)

/-- `size_to_idx`. In the 59th pass the bucket has wrapped to zero. -/
def size_to_idx (sz : Nat) : Nat := sizeToIdxLoop sz 59 0 64

/-- The first `count` passes of the loop of `grow_small`: the memory and `pool[idx].free`. -/
def growLoop (addr size : Nat) (memory : Memory) (free : Nat) : Nat → Memory × Nat
  | 0 => (memory, free)
  | count + 1 =>
    let (memory, free) := growLoop addr size memory free count
    let obj := addr + count * size
    (setHeader memory obj (size - HEADER_SIZE) free, obj)

def grow_small (idx : Nat) (mapped : Bool) (s : State) : State :=
  if mapped = false then s
  else
    let addr := (s.pool idx).top
    let (memory, free) := growLoop addr (bucketSz idx) s.memory (s.pool idx).free HEAP_INCREMENT
    { s with
      memory := memory
      pool := Function.update s.pool idx
        { free := free, top := addr + bucketSz idx * HEAP_INCREMENT } }

/-- The pool that `malloc_small` takes a cell from. -/
def grown (idx : Nat) (mapped : Bool) (s : State) : State :=
  if (s.pool idx).free = 0 then grow_small idx mapped s else s

def malloc_small (sz : Nat) (mapped : Bool) (s : State) : Nat × State :=
  let idx := size_to_idx sz
  let s := grown idx mapped s
  let hdr := (s.pool idx).free
  if hdr = 0 then (0, s)
  else
    (hdr + HEADER_SIZE,
      { s with pool := Function.update s.pool idx { s.pool idx with free := nextAt s.memory hdr } })

def free_small (mem : Nat) (s : State) : State :=
  let idx := size_to_idx (sizeAt s.memory mem)
  { s with
    memory := setNext s.memory mem (s.pool idx).free
    pool := Function.update s.pool idx { s.pool idx with free := mem } }

/-- The bytes that `malloc_large` maps for a block. -/
def realSz (sz : Nat) : Nat := (sz + 4095) % word64 / 4096 * 4096

def malloc_large (sz : Nat) (mapped : Bool) (s : State) : Nat × State :=
  if mapped = false then (0, s)
  else
    (s.largeTop + HEADER_SIZE,
      { s with
        memory := setHeader s.memory s.largeTop (realSz sz) 0
        largeTop := add64 s.largeTop (realSz sz) })

def malloc (sz : Nat) (mapped : Bool) (s : State) : Nat × State :=
  if HEAP_MAX_POOLSIZE < sz then malloc_large sz mapped s else malloc_small sz mapped s

/-- `free`; `none` is a failed `assert`. The `munmap` of a large block changes nothing here. -/
def free (mem : Nat) (s : State) : Option State :=
  let hdr := mem - HEADER_SIZE
  if mem = 0 then some s
  else if magicAt s.memory hdr ≠ HEAP_MAGIC then none
  else if HEAP_MAX_POOLSIZE < sizeAt s.memory hdr then some s
  else some (free_small hdr s)

inductive Label where
  | malloc (sz : Nat) (mapped : Bool)
  | free (mem : Nat)
  /-- The program stores a byte. -/
  | write (address : Nat) (byte : UInt8)

/-- The call and what the program then has. -/
def apply (s : State) : Label → Option State
  | .malloc sz mapped =>
    let (mem, s) := malloc sz mapped s
    some (if mem = 0 then s else { s with live := (mem, sz) :: s.live })
  | .free mem => (free mem s).map fun s => { s with live := s.live.filter (fun block => block.1 ≠ mem) }
  | .write address byte => some { s with memory := Function.update s.memory address byte }

/-- What the program may do: small blocks only, `free` of what it has, stores inside its blocks. -/
def Allowed (s : State) : Label → Prop
  | .malloc sz _ => sz ≤ HEAP_MAX_POOLSIZE
  | .free mem => mem = 0 ∨ ∃ sz, (mem, sz) ∈ s.live
  | .write address _ => ∃ mem sz, (mem, sz) ∈ s.live ∧ mem ≤ address ∧ address < mem + sz

def Separate (s : State) : Prop := ∀ idx < HEAP_POOLS, (s.pool idx).top ≤ base (idx + 1)

instance (s : State) : Decidable (Separate s) :=
  inferInstanceAs (Decidable (∀ idx < HEAP_POOLS, (s.pool idx).top ≤ base (idx + 1)))

def Step (s : State) (label : Label) (s' : State) : Prop :=
  apply s label = some s' ∧ Allowed s label ∧ Separate s'

def initial (memory : Memory) : State :=
  { pool := fun idx => { free := 0, top := base idx }, largeTop := 0x4C000000, memory := memory,
    live := [] }

theorem bucketSz_eq (idx : Nat) : bucketSz idx = 64 * 2 ^ idx := by
  rw [bucketSz, Nat.shiftLeft_eq, one_mul, mul_comm]

variable {s s' : State} {cells : Nat → List Nat} {idx hdr sz i j mem : Nat} {memory : Memory}

theorem bucketSz_pos (idx : Nat) : 64 ≤ bucketSz idx := by
  rw [bucketSz_eq]
  exact Nat.le_mul_of_pos_right 64 (Nat.two_pow_pos idx)

theorem bucketSz_mono (le : i ≤ j) : bucketSz i ≤ bucketSz j := by
  rw [bucketSz_eq, bucketSz_eq]
  exact Nat.mul_le_mul_left 64 (Nat.pow_le_pow_right (by decide) le)

theorem bucketSz_le (small : idx < HEAP_POOLS) : bucketSz idx ≤ 131072 := by
  have last : bucketSz 11 = 131072 := by decide
  rw [← last]
  exact bucketSz_mono (Nat.le_of_lt_succ small)

theorem sizeToIdxLoop_eq (small : idx < HEAP_POOLS) (fits : sz + HEADER_SIZE ≤ bucketSz idx)
    (first : ∀ i < idx, bucketSz i < sz + HEADER_SIZE) (left i : Nat) (start : i ≤ idx)
    (passes : idx - i < left) : sizeToIdxLoop sz left i (bucketSz i) = idx := by
  have large := bucketSz_pos i
  have bound := le_trans (bucketSz_mono start) (bucketSz_le small)
  have wrap : (bucketSz i + word64 - HEADER_SIZE) % word64 = bucketSz i - HEADER_SIZE := by
    unfold HEADER_SIZE word64
    omega
  induction left generalizing i with
  | zero => omega
  | succ left ih =>
    rw [sizeToIdxLoop, wrap]
    by_cases last : i = idx
    · rw [last, if_pos (by omega)]
    · have early := first i (by omega)
      have double : mul64 (bucketSz i) 2 = bucketSz (i + 1) := by
        rw [mul64_of_lt (by unfold word64; omega), bucketSz_eq, bucketSz_eq, pow_succ]
        omega
      have next := le_trans (bucketSz_mono (show i + 1 ≤ idx by omega)) (bucketSz_le small)
      have nextLarge := bucketSz_pos (i + 1)
      rw [if_neg (by unfold HEADER_SIZE at *; omega), double]
      refine ih (i + 1) (by omega) (by omega) nextLarge next ?_
      unfold HEADER_SIZE word64
      omega

theorem size_to_idx_spec (small : sz ≤ HEAP_MAX_POOLSIZE) :
    size_to_idx sz < HEAP_POOLS ∧ sz + HEADER_SIZE ≤ bucketSz (size_to_idx sz) := by
  have last : sz + HEADER_SIZE ≤ bucketSz 11 := by
    have : bucketSz 11 = HEAP_MAX_POOLSIZE + HEADER_SIZE := by decide
    omega
  have some' : ∃ idx, sz + HEADER_SIZE ≤ bucketSz idx := ⟨11, last⟩
  have below : Nat.find some' < HEAP_POOLS := Nat.lt_succ_of_le (Nat.find_min' some' last)
  have found : size_to_idx sz = Nat.find some' := by
    refine sizeToIdxLoop_eq below (Nat.find_spec some') ?_ 59 0 (Nat.zero_le _) ?_
    · intro i early
      exact Nat.lt_of_not_le (Nat.find_min some' early)
    · exact lt_of_lt_of_le below (by decide)
  rw [found]
  exact ⟨below, Nat.find_spec some'⟩

theorem size_to_idx_carved (small : idx < HEAP_POOLS) :
    size_to_idx (bucketSz idx - HEADER_SIZE) = idx := by
  have large := bucketSz_pos idx
  refine sizeToIdxLoop_eq small (by unfold HEADER_SIZE; omega) ?_ 59 0 (Nat.zero_le _)
    (Nat.lt_of_lt_of_le small (by decide))
  intro i early
  have twice := bucketSz_mono (show i + 1 ≤ idx from early)
  have double : bucketSz (i + 1) = 2 * bucketSz i := by
    rw [bucketSz_eq, bucketSz_eq, pow_succ]
    omega
  unfold HEADER_SIZE
  omega

variable {memory' : Memory} {place addr size next address : Nat} {mapped : Bool}

def SameHeader (memory memory' : Memory) (hdr : Nat) : Prop :=
  ∀ place, hdr ≤ place → place < hdr + HEADER_SIZE → memory' place = memory place

section

variable (same : SameHeader memory memory' hdr)
include same

theorem SameHeader.magicAt : magicAt memory' hdr = magicAt memory hdr :=
  loadLE_congr _ _ _ _ (fun place low high => same place low (by unfold HEADER_SIZE; omega))

theorem SameHeader.sizeAt : sizeAt memory' hdr = sizeAt memory hdr :=
  loadLE_congr _ _ _ _ (fun place low high =>
    same place (by omega) (by unfold HEADER_SIZE; omega))

theorem SameHeader.nextAt : nextAt memory' hdr = nextAt memory hdr :=
  loadLE_congr _ _ _ _ (fun place low high =>
    same place (by omega) (by unfold HEADER_SIZE; omega))

end

theorem setNext_outside (memory : Memory) (hdr next : Nat)
    (outside : place < hdr + 8 ∨ hdr + HEADER_SIZE ≤ place) :
    setNext memory hdr next place = memory place :=
  storeLE_outside _ _ _ _ _ (by unfold HEADER_SIZE at outside; omega)

theorem setNext_fields (memory : Memory) (hdr : Nat) (pointer : next < word64) :
    magicAt (setNext memory hdr next) hdr = magicAt memory hdr ∧
      sizeAt (setNext memory hdr next) hdr = sizeAt memory hdr ∧
      nextAt (setNext memory hdr next) hdr = next := by
  refine ⟨?_, ?_, ?_⟩
  · exact loadLE_storeLE_apart _ _ _ _ _ _ (by omega)
  · exact loadLE_storeLE_apart _ _ _ _ _ _ (by omega)
  · exact loadLE_storeLE _ _ _ _ (lt_of_lt_of_le pointer (by decide))

theorem setHeader_outside (memory : Memory) (hdr size next : Nat)
    (outside : place < hdr ∨ hdr + HEADER_SIZE ≤ place) :
    setHeader memory hdr size next place = memory place := by
  unfold HEADER_SIZE at outside
  rw [setHeader, setNext_outside _ _ _ (by unfold HEADER_SIZE; omega),
    storeLE_outside _ _ _ _ _ (by omega), storeLE_outside _ _ _ _ _ (by omega),
    storeLE_outside _ _ _ _ _ (by omega)]

theorem setHeader_fields (memory : Memory) (hdr size : Nat) (bound : size < 2 ^ 32)
    (pointer : next < word64) :
    magicAt (setHeader memory hdr size next) hdr = HEAP_MAGIC ∧
      sizeAt (setHeader memory hdr size next) hdr = size ∧
      nextAt (setHeader memory hdr size next) hdr = next := by
  obtain ⟨magic, sized, next'⟩ := setNext_fields
    (storeLE (storeLE (storeLE memory hdr 2 HEAP_MAGIC) (hdr + 2) 2 0) (hdr + 4) 4 size) hdr pointer
  refine ⟨magic.trans ?_, sized.trans ?_, next'⟩
  · rw [magicAt, loadLE_storeLE_apart _ _ _ _ _ _ (by omega),
      loadLE_storeLE_apart _ _ _ _ _ _ (by omega)]
    exact loadLE_storeLE _ _ _ _ (by decide)
  · exact loadLE_storeLE _ _ _ _ (lt_of_lt_of_le bound (by decide))

/-- The cells that the first passes of `grow_small` put on the free list, the last one first. -/
def newCells (addr size : Nat) : Nat → List Nat
  | 0 => []
  | count + 1 => (addr + count * size) :: newCells addr size count

theorem mem_newCells {addr size count hdr : Nat} :
    hdr ∈ newCells addr size count ↔ ∃ k < count, hdr = addr + k * size := by
  induction count with
  | zero => simp [newCells]
  | succ count ih =>
    rw [newCells, mem_cons, ih]
    constructor
    · rintro (rfl | ⟨k, below, rfl⟩)
      · exact ⟨count, Nat.lt_succ_self _, rfl⟩
      · exact ⟨k, Nat.lt_succ_of_lt below, rfl⟩
    · rintro ⟨k, below, rfl⟩
      rcases Nat.lt_succ_iff_lt_or_eq.mp below with early | rfl
      · exact .inr ⟨k, early, rfl⟩
      · exact .inl rfl

theorem newCells_nodup (pos : 0 < size) (count : Nat) : (newCells addr size count).Nodup := by
  induction count with
  | zero => exact nodup_nil
  | succ count ih =>
    refine nodup_cons.mpr ⟨?_, ih⟩
    intro member
    obtain ⟨k, below, same⟩ := mem_newCells.mp member
    have := mul_lt_mul_of_pos_right below pos
    omega

theorem growLoop_outside (addr size : Nat) (memory : Memory) (free : Nat)
    (large : HEADER_SIZE ≤ size) (count : Nat)
    (outside : place < addr ∨ addr + count * size ≤ place) :
    (growLoop addr size memory free count).1 place = memory place := by
  induction count with
  | zero => rfl
  | succ count ih =>
    have step : (count + 1) * size = count * size + size := Nat.succ_mul _ _
    rw [growLoop]
    show setHeader _ (addr + count * size) _ _ place = _
    rw [setHeader_outside _ _ _ _ (by omega)]
    exact ih (by omega)

theorem growLoop_free (addr size : Nat) (memory : Memory) (free count : Nat) :
    (growLoop addr size memory free count).2 = free ∨
      ∃ k < count, (growLoop addr size memory free count).2 = addr + k * size := by
  cases count with
  | zero => exact .inl rfl
  | succ count => exact .inr ⟨count, Nat.lt_succ_self _, rfl⟩

theorem growLoop_spec {free : Nat} {cells : List Nat}
    (large : 64 ≤ size) (bound : size < 2 ^ 32) (pointer : free < word64) (real : 0 < addr)
    (count : Nat) (fits : addr + count * size ≤ word64) (chain : Linked (nextAt memory) free cells)
    (away : ∀ hdr ∈ cells, hdr + HEADER_SIZE ≤ addr ∨ addr + count * size ≤ hdr) :
    (∀ k < count,
      magicAt (growLoop addr size memory free count).1 (addr + k * size) = HEAP_MAGIC ∧
      sizeAt (growLoop addr size memory free count).1 (addr + k * size) = size - HEADER_SIZE) ∧
    Linked (nextAt (growLoop addr size memory free count).1)
      (growLoop addr size memory free count).2 (newCells addr size count ++ cells) := by
  induction count with
  | zero => exact ⟨fun k below => absurd below (Nat.not_lt_zero k), chain⟩
  | succ count ih =>
    have step : (count + 1) * size = count * size + size := Nat.succ_mul _ _
    obtain ⟨headers, linked⟩ := ih (by omega) (by
      intro hdr member
      have := away hdr member
      omega)
    have freeBound : (growLoop addr size memory free count).2 < word64 := by
      rcases growLoop_free addr size memory free count with same | ⟨k, below, same⟩
      · rw [same]
        exact pointer
      · have := mul_lt_mul_of_pos_right below (show 0 < size by omega)
        omega
    obtain ⟨magic, sized, next⟩ := setHeader_fields (growLoop addr size memory free count).1
      (addr + count * size) (size - HEADER_SIZE) (by omega) freeBound
    have kept : ∀ hdr, hdr + HEADER_SIZE ≤ addr + count * size ∨ addr + count * size + size ≤ hdr →
        SameHeader (growLoop addr size memory free count).1
          (growLoop addr size memory free (count + 1)).1 hdr := by
      intro hdr apart place low high
      exact setHeader_outside _ _ _ _ (by unfold HEADER_SIZE at *; omega)
    have earlier : ∀ k < count, addr + k * size + size ≤ addr + count * size := by
      intro k below
      have := Nat.mul_le_mul_right size (show k + 1 ≤ count from below)
      rw [Nat.succ_mul] at this
      omega
    constructor
    · intro k below
      by_cases last : k = count
      · rw [last]
        exact ⟨magic, sized⟩
      · have before := earlier k (by omega)
        have same := kept (addr + k * size) (by unfold HEADER_SIZE; omega)
        rw [same.magicAt, same.sizeAt]
        exact headers k (by omega)
    · refine ⟨rfl, by omega, ?_⟩
      show Linked _ (nextAt (setHeader _ _ _ _) (addr + count * size)) _
      rw [next]
      refine linked.congr ?_
      intro hdr member
      rcases mem_append.mp member with new | old
      · obtain ⟨k, below, rfl⟩ := mem_newCells.mp new
        have before := earlier k below
        exact (kept _ (by unfold HEADER_SIZE; omega)).nextAt
      · have := away hdr old
        exact (kept hdr (by omega)).nextAt

/-- A cell of the pool that `grow_small` has carved. -/
def Cell (s : State) (idx hdr : Nat) : Prop :=
  ∃ k, hdr = base idx + k * bucketSz idx ∧ hdr + bucketSz idx ≤ (s.pool idx).top

theorem base_le (le : i ≤ j) : base i ≤ base j := by
  unfold base
  omega

theorem Cell.apart (separate : Separate s) {i j hdr hdr' : Nat}
    (small : i < HEAP_POOLS) (small' : j < HEAP_POOLS) (cell : Cell s i hdr)
    (cell' : Cell s j hdr') (different : hdr ≠ hdr' ∨ i ≠ j) :
    hdr + bucketSz i ≤ hdr' ∨ hdr' + bucketSz j ≤ hdr := by
  obtain ⟨k, place, inside⟩ := cell
  obtain ⟨k', place', inside'⟩ := cell'
  rcases lt_trichotomy i j with below | same | above
  · have next := base_le (show i + 1 ≤ j from below)
    have top := separate i small
    omega
  · subst same
    rcases Nat.lt_trichotomy k k' with less | equal | more
    · have := Nat.mul_le_mul_right (bucketSz i) (show k + 1 ≤ k' from less)
      rw [Nat.succ_mul] at this
      omega
    · rw [equal] at place
      omega
    · have := Nat.mul_le_mul_right (bucketSz i) (show k' + 1 ≤ k from more)
      rw [Nat.succ_mul] at this
      omega
  · have next := base_le (show j + 1 ≤ i from above)
    have top := separate j small'
    omega

/-- The heap with its free lists: every cell has its header, and is on the free list of its pool
or at most once with the program. -/
structure Inv (s : State) (cells : Nat → List Nat) : Prop where
  separate : Separate s
  tops : ∀ idx < HEAP_POOLS, ∃ n, (s.pool idx).top = base idx + n * bucketSz idx
  chain : ∀ idx < HEAP_POOLS, Linked (nextAt s.memory) (s.pool idx).free (cells idx)
  carved : ∀ idx < HEAP_POOLS, ∀ hdr ∈ cells idx, Cell s idx hdr
  nodup : ∀ idx < HEAP_POOLS, (cells idx).Nodup
  headers : ∀ idx < HEAP_POOLS, ∀ hdr, Cell s idx hdr →
    magicAt s.memory hdr = HEAP_MAGIC ∧ sizeAt s.memory hdr = bucketSz idx - HEADER_SIZE
  blocks : ∀ mem sz, (mem, sz) ∈ s.live → ∃ idx < HEAP_POOLS, ∃ hdr,
    mem = hdr + HEADER_SIZE ∧ Cell s idx hdr ∧ sz + HEADER_SIZE ≤ bucketSz idx
  liveNodup : (s.live.map Prod.fst).Nodup
  apart : ∀ idx < HEAP_POOLS, ∀ hdr ∈ cells idx, ∀ sz, (hdr + HEADER_SIZE, sz) ∉ s.live

theorem Inv.nodup_update {cells : Nat → List Nat} (inv : Inv s cells) {list : List Nat}
    (here : list.Nodup) : ∀ i < HEAP_POOLS, (update cells idx list i).Nodup := by
  intro i small
  by_cases same : i = idx
  · rwa [same, update_self]
  · rw [update_of_ne same]
    exact inv.nodup i small

theorem top_free (pool : Nat → HeapPool) (idx free i : Nat) :
    (update pool idx { pool idx with free := free } i).top = (pool i).top := by
  by_cases same : i = idx
  · rw [same, update_self]
  · rw [update_of_ne same]

theorem cell_congr (top : ∀ i, (s'.pool i).top = (s.pool i).top) :
    Cell s' idx hdr ↔ Cell s idx hdr := by
  unfold Cell
  rw [top idx]

theorem Inv.of_tops {cells cells' : Nat → List Nat} (inv : Inv s cells)
    (top : ∀ i, (s'.pool i).top = (s.pool i).top)
    (chain : ∀ idx < HEAP_POOLS, Linked (nextAt s'.memory) (s'.pool idx).free (cells' idx))
    (carved : ∀ idx < HEAP_POOLS, ∀ hdr ∈ cells' idx, Cell s idx hdr)
    (nodup : ∀ idx < HEAP_POOLS, (cells' idx).Nodup)
    (headers : ∀ idx < HEAP_POOLS, ∀ hdr, Cell s idx hdr →
      magicAt s'.memory hdr = HEAP_MAGIC ∧ sizeAt s'.memory hdr = bucketSz idx - HEADER_SIZE)
    (blocks : ∀ mem sz, (mem, sz) ∈ s'.live → ∃ idx < HEAP_POOLS, ∃ hdr,
      mem = hdr + HEADER_SIZE ∧ Cell s idx hdr ∧ sz + HEADER_SIZE ≤ bucketSz idx)
    (liveNodup : (s'.live.map Prod.fst).Nodup)
    (apart : ∀ idx < HEAP_POOLS, ∀ hdr ∈ cells' idx, ∀ sz, (hdr + HEADER_SIZE, sz) ∉ s'.live) :
    Inv s' cells' where
  separate i small := by
    rw [top]
    exact inv.separate i small
  tops i small := by
    rw [top]
    exact inv.tops i small
  chain := chain
  carved i small hdr member := (cell_congr top).mpr (carved i small hdr member)
  nodup := nodup
  headers i small hdr cell := headers i small hdr ((cell_congr top).mp cell)
  blocks mem sz has := by
    obtain ⟨i, small, hdr, start, cell, fits⟩ := blocks mem sz has
    exact ⟨i, small, hdr, start, (cell_congr top).mpr cell, fits⟩
  liveNodup := liveNodup
  apart := apart

section

variable (inv : Inv s cells)
include inv

theorem Inv.cell_bound
    (small : idx < HEAP_POOLS) (cell : Cell s idx hdr) : 0 < hdr ∧ hdr < word64 := by
  obtain ⟨k, place, inside⟩ := cell
  have top := inv.separate idx small
  have large := bucketSz_pos idx
  unfold base at *
  unfold HEAP_POOLS at small
  unfold word64
  omega

theorem Inv.free_bound (small : idx < HEAP_POOLS) : (s.pool idx).free < word64 := by
  have first := (inv.chain idx small).first_eq
  cases list : cells idx with
  | nil =>
    rw [first, list]
    decide
  | cons hdr rest =>
    have member : hdr ∈ cells idx := by
      rw [list]
      exact mem_cons_self
    rw [first, list]
    exact (inv.cell_bound small (inv.carved idx small hdr member)).2

theorem Inv.withMemory
    (same : ∀ idx < HEAP_POOLS, ∀ hdr, Cell s idx hdr → SameHeader s.memory memory hdr) :
    Inv { s with memory := memory } cells where
  separate := inv.separate
  tops := inv.tops
  chain := by
    intro idx small
    refine (inv.chain idx small).congr ?_
    intro hdr member
    exact (same idx small hdr (inv.carved idx small hdr member)).nextAt
  carved := inv.carved
  nodup := inv.nodup
  headers := by
    intro idx small hdr cell
    have kept := same idx small hdr cell
    have old := inv.headers idx small hdr cell
    exact ⟨kept.magicAt.trans old.1, kept.sizeAt.trans old.2⟩
  blocks := inv.blocks
  liveNodup := inv.liveNodup
  apart := inv.apart

theorem Inv.write_spares
    {address mem sz : Nat} (byte : UInt8) (has : (mem, sz) ∈ s.live) (low : mem ≤ address)
    (high : address < mem + sz) (small : idx < HEAP_POOLS) (cell : Cell s idx hdr) :
    SameHeader s.memory (update s.memory address byte) hdr := by
  obtain ⟨own, ownSmall, block, start, ownCell, fits⟩ := inv.blocks mem sz has
  have large := bucketSz_pos idx
  intro place first last
  refine update_of_ne ?_ _ _
  rintro rfl
  unfold HEADER_SIZE at *
  by_cases same : hdr = block
  · omega
  · rcases cell.apart inv.separate small ownSmall ownCell (.inl same) with before | behind <;> omega

theorem Inv.write {byte : UInt8} (allowed : Allowed s (.write address byte)) :
    Inv { s with memory := update s.memory address byte } cells := by
  obtain ⟨mem, sz, has, low, high⟩ := allowed
  exact inv.withMemory (fun idx small hdr => inv.write_spares byte has low high small)

end

theorem Inv.block (inv : Inv s cells)
    (has : (mem, sz) ∈ s.live) : ∃ idx < HEAP_POOLS, Cell s idx (mem - HEADER_SIZE) ∧
      mem = mem - HEADER_SIZE + HEADER_SIZE ∧
      magicAt s.memory (mem - HEADER_SIZE) = HEAP_MAGIC ∧
      sizeAt s.memory (mem - HEADER_SIZE) = bucketSz idx - HEADER_SIZE := by
  obtain ⟨idx, small, hdr, rfl, cell, _⟩ := inv.blocks mem sz has
  rw [Nat.add_sub_cancel]
  exact ⟨idx, small, cell, rfl, inv.headers idx small hdr cell⟩

theorem Inv.free_eq (inv : Inv s cells)
    (has : (mem, sz) ∈ s.live) : ∃ idx < HEAP_POOLS, ∃ hdr, mem = hdr + HEADER_SIZE ∧
      Cell s idx hdr ∧ size_to_idx (sizeAt s.memory hdr) = idx ∧
      free mem s = some { s with
        memory := setNext s.memory hdr (s.pool idx).free
        pool := update s.pool idx { s.pool idx with free := hdr } } := by
  obtain ⟨idx, small, cell, start, magic, size⟩ := inv.block has
  have route : size_to_idx (sizeAt s.memory (mem - HEADER_SIZE)) = idx := by
    rw [size]
    exact size_to_idx_carved small
  refine ⟨idx, small, mem - HEADER_SIZE, start, cell, route, ?_⟩
  have real : mem ≠ 0 := by
    unfold HEADER_SIZE at start
    omega
  have fits : ¬ HEAP_MAX_POOLSIZE < sizeAt s.memory (mem - HEADER_SIZE) := by
    have := bucketSz_le small
    rw [size]
    unfold HEAP_MAX_POOLSIZE HEADER_SIZE
    omega
  rw [free]
  simp only [if_neg real, magic, ne_eq, not_true, if_false, if_neg fits, free_small, route]

theorem Inv.put (inv : Inv s cells) (small : idx < HEAP_POOLS) (cell : Cell s idx hdr)
    (held : ∃ sz, (hdr + HEADER_SIZE, sz) ∈ s.live) :
    Inv { s with
        memory := setNext s.memory hdr (s.pool idx).free
        pool := update s.pool idx { s.pool idx with free := hdr }
        live := s.live.filter (fun block => block.1 ≠ hdr + HEADER_SIZE) }
      (update cells idx (hdr :: cells idx)) := by
  have fields := setNext_fields s.memory hdr (inv.free_bound small)
  have fresh : ∀ i < HEAP_POOLS, hdr ∉ cells i := by
    intro i small' member
    obtain ⟨sz, has⟩ := held
    exact inv.apart i small' hdr member sz has
  have kept : ∀ i < HEAP_POOLS, ∀ other, Cell s i other → other ≠ hdr →
      SameHeader s.memory (setNext s.memory hdr (s.pool idx).free) other := by
    intro i small' other cell' different place low high
    have large := bucketSz_pos i
    have large' := bucketSz_pos idx
    have := cell'.apart inv.separate small' small cell (.inl different)
    exact setNext_outside _ _ _ (by unfold HEADER_SIZE at *; omega)
  have chain : ∀ i < HEAP_POOLS,
      Linked (nextAt (setNext s.memory hdr (s.pool idx).free)) (s.pool i).free (cells i) := by
    intro i small'
    refine (inv.chain i small').congr ?_
    intro other member
    refine (kept i small' other (inv.carved i small' other member) ?_).nextAt
    rintro rfl
    exact fresh i small' member
  have listed : ∀ i, ∀ other ∈ update cells idx (hdr :: cells idx) i,
      (i = idx ∧ other = hdr) ∨ other ∈ cells i := by
    intro i other member
    by_cases same : i = idx
    · subst same
      rw [update_self] at member
      exact (mem_cons.mp member).imp_left (fun first => ⟨rfl, first⟩)
    · rw [update_of_ne same] at member
      exact .inr member
  have sub : ∀ block, block ∈ s.live.filter (fun block => block.1 ≠ hdr + HEADER_SIZE) →
      block ∈ s.live ∧ block.1 ≠ hdr + HEADER_SIZE := by
    intro block member
    simpa using mem_filter.mp member
  refine inv.of_tops (top_free s.pool idx hdr) ?_ ?_ ?_ ?_ ?_ ?_ ?_
  · intro i small'
    show Linked _ (update s.pool idx { s.pool idx with free := hdr } i).free
      (update cells idx (hdr :: cells idx) i)
    by_cases same : i = idx
    · subst same
      rw [update_self, update_self]
      refine ⟨rfl, ne_of_gt (inv.cell_bound small cell).1, ?_⟩
      rw [fields.2.2]
      exact chain i small
    · rw [update_of_ne same, update_of_ne same]
      exact chain i small'
  · intro i small' other member
    rcases listed i other member with ⟨rfl, rfl⟩ | old
    · exact cell
    · exact inv.carved i small' other old
  · exact inv.nodup_update (nodup_cons.mpr ⟨fresh idx small, inv.nodup idx small⟩)
  · intro i small' other old
    have header := inv.headers i small' other old
    by_cases same : other = hdr
    · rw [same] at header ⊢
      exact ⟨fields.1.trans header.1, fields.2.1.trans header.2⟩
    · have spared := kept i small' other old same
      exact ⟨spared.magicAt.trans header.1, spared.sizeAt.trans header.2⟩
  · exact fun mem sz has => inv.blocks mem sz (sub _ has).1
  · exact inv.liveNodup.sublist ((filter_sublist).map Prod.fst)
  · intro i small' other member sz has
    obtain ⟨old, different⟩ := sub _ has
    rcases listed i other member with ⟨rfl, rfl⟩ | before
    · exact different rfl
    · exact inv.apart i small' other before sz old

theorem Inv.take (inv : Inv s cells) (small : idx < HEAP_POOLS) (some' : (s.pool idx).free ≠ 0)
    (fits : sz + HEADER_SIZE ≤ bucketSz idx) :
    ∃ cells', Inv { s with
      pool := update s.pool idx
        { s.pool idx with free := nextAt s.memory (s.pool idx).free }
      live := ((s.pool idx).free + HEADER_SIZE, sz) :: s.live } cells' := by
  have chain := inv.chain idx small
  cases list : cells idx with
  | nil =>
    rw [list] at chain
    exact absurd chain some'
  | cons hdr rest =>
    rw [list] at chain
    obtain ⟨first, real, tail⟩ := chain
    have member : hdr ∈ cells idx := by
      rw [list]
      exact mem_cons_self
    have inList : ∀ other ∈ rest, other ∈ cells idx := by
      intro other before
      rw [list]
      exact mem_cons_of_mem _ before
    have cell := inv.carved idx small hdr member
    have distinct : hdr ∉ rest ∧ rest.Nodup := by
      have := inv.nodup idx small
      rw [list] at this
      exact nodup_cons.mp this
    rw [first]
    have sub : ∀ i, ∀ other ∈ update cells idx rest i,
        other ∈ cells i ∧ (i = idx → other ∈ rest) := by
      intro i other has
      by_cases same : i = idx
      · subst same
        rw [update_self] at has
        exact ⟨inList other has, fun _ => has⟩
      · rw [update_of_ne same] at has
        exact ⟨has, fun equal => absurd equal same⟩
    refine ⟨update cells idx rest, ?_⟩
    refine inv.of_tops (top_free s.pool idx (nextAt s.memory hdr)) ?_ ?_ ?_ inv.headers ?_ ?_ ?_
    · intro i small'
      show Linked _ (update s.pool idx _ i).free (update cells idx rest i)
      by_cases same : i = idx
      · subst same
        rw [update_self, update_self]
        exact tail
      · rw [update_of_ne same, update_of_ne same]
        exact inv.chain i small'
    · exact fun i small' other has => inv.carved i small' other (sub i other has).1
    · exact inv.nodup_update distinct.2
    · intro mem sz' has
      rcases mem_cons.mp has with new | old
      · cases new
        exact ⟨idx, small, hdr, rfl, cell, fits⟩
      · exact inv.blocks mem sz' old
    · refine nodup_cons.mpr ⟨?_, inv.liveNodup⟩
      intro held
      obtain ⟨⟨mem, sz'⟩, has, same⟩ := mem_map.mp held
      have equal : mem = hdr + HEADER_SIZE := same
      exact inv.apart idx small hdr member sz' (equal ▸ has)
    · intro i small' other has sz' held
      obtain ⟨old, notFirst⟩ := sub i other has
      rcases mem_cons.mp held with new | before
      · have equal : other = hdr := add_right_cancel (Prod.mk.inj new).1
        by_cases same : i = idx
        · exact distinct.1 (equal ▸ notFirst same)
        · -- The cell would be in two pools.
          subst equal
          have := (inv.carved i small' other old).apart inv.separate small' small cell (.inr same)
          have := bucketSz_pos i
          have := bucketSz_pos idx
          omega
      · exact inv.apart i small' other old sz' before

theorem cell_grown (tops : ∃ n, (s.pool idx).top = base idx + n * bucketSz idx)
    (top : (s'.pool idx).top = (s.pool idx).top + bucketSz idx * HEAP_INCREMENT)
    (cell : Cell s' idx hdr) :
    Cell s idx hdr ∨ ∃ k < HEAP_INCREMENT, hdr = (s.pool idx).top + k * bucketSz idx := by
  obtain ⟨n, grid⟩ := tops
  obtain ⟨k, place, inside⟩ := cell
  have large := bucketSz_pos idx
  by_cases old : k < n
  · refine .inl ⟨k, place, ?_⟩
    have := Nat.mul_le_mul_right (bucketSz idx) (show k + 1 ≤ n from old)
    rw [Nat.succ_mul] at this
    omega
  · obtain ⟨j, rfl⟩ := Nat.exists_eq_add_of_le (Nat.le_of_not_lt old)
    refine .inr ⟨j, ?_, ?_⟩
    · rw [Nat.add_mul] at place
      by_contra beyond
      have := Nat.mul_le_mul_right (bucketSz idx) (Nat.le_of_not_lt beyond)
      rw [Nat.mul_comm HEAP_INCREMENT] at this
      omega
    · rw [add_mul] at place
      omega

theorem Inv.beyond (inv : Inv s cells) (small : idx < HEAP_POOLS)
    (room : (s.pool idx).top + bucketSz idx * HEAP_INCREMENT ≤ base (idx + 1))
    (small' : i < HEAP_POOLS) (cell : Cell s i hdr) :
    hdr + bucketSz i ≤ (s.pool idx).top ∨
      (s.pool idx).top + bucketSz idx * HEAP_INCREMENT ≤ hdr := by
  obtain ⟨n, grid⟩ := inv.tops idx small
  obtain ⟨k, place, inside⟩ := cell
  rcases lt_trichotomy i idx with below | same | above
  · have := base_le (show i + 1 ≤ idx from below)
    have := inv.separate i small'
    omega
  · subst same
    exact .inl inside
  · have := base_le (show idx + 1 ≤ i from above)
    omega

theorem Inv.grow (inv : Inv s cells) (small : idx < HEAP_POOLS)
    (room : (s.pool idx).top + bucketSz idx * HEAP_INCREMENT ≤ base (idx + 1)) :
    Inv (grow_small idx true s)
      (update cells idx
        (newCells (s.pool idx).top (bucketSz idx) HEAP_INCREMENT ++ cells idx)) ∧
    ∀ i < HEAP_POOLS, ∀ hdr, Cell s i hdr →
      SameHeader s.memory (grow_small idx true s).memory hdr := by
  have large := bucketSz_pos idx
  have bound := bucketSz_le small
  obtain ⟨n, grid⟩ := inv.tops idx small
  have comm : HEAP_INCREMENT * bucketSz idx = bucketSz idx * HEAP_INCREMENT := mul_comm _ _
  have real : 0 < (s.pool idx).top := by
    unfold base at grid
    omega
  have last : base (idx + 1) ≤ word64 := by
    unfold base word64
    unfold HEAP_POOLS at small
    omega
  obtain ⟨headers, chain⟩ := growLoop_spec large (by omega) (inv.free_bound small) real
    HEAP_INCREMENT (by omega) (inv.chain idx small) (by
      intro hdr member
      have := inv.beyond small room small (inv.carved idx small hdr member)
      unfold HEADER_SIZE
      omega)
  have kept : ∀ i < HEAP_POOLS, ∀ hdr, Cell s i hdr →
      SameHeader s.memory (grow_small idx true s).memory hdr := by
    intro i small' hdr cell place low high
    have := inv.beyond small room small' cell
    have := bucketSz_pos i
    exact growLoop_outside (s.pool idx).top (bucketSz idx) s.memory (s.pool idx).free
      (by unfold HEADER_SIZE; omega) HEAP_INCREMENT (by unfold HEADER_SIZE at high; omega)
  have pool : (grow_small idx true s).pool idx = {
      free := (growLoop (s.pool idx).top (bucketSz idx) s.memory (s.pool idx).free HEAP_INCREMENT).2
      top := (s.pool idx).top + bucketSz idx * HEAP_INCREMENT } := update_self ..
  have others : ∀ i, i ≠ idx → (grow_small idx true s).pool i = s.pool i :=
    fun i away => update_of_ne away ..
  have grew : ∀ i hdr, Cell s i hdr → Cell (grow_small idx true s) i hdr := by
    intro i hdr ⟨k, place, inside⟩
    refine ⟨k, place, ?_⟩
    by_cases same : i = idx
    · subst same
      rw [pool]
      show _ ≤ (s.pool i).top + _
      omega
    · rw [others i same]
      exact inside
  have new : ∀ k < HEAP_INCREMENT,
      Cell (grow_small idx true s) idx ((s.pool idx).top + k * bucketSz idx) ∧
      ∀ i < HEAP_POOLS, ¬ Cell s i ((s.pool idx).top + k * bucketSz idx) := by
    intro k below
    have within := Nat.mul_le_mul_right (bucketSz idx) (show k + 1 ≤ HEAP_INCREMENT from below)
    rw [Nat.succ_mul] at within
    constructor
    · refine ⟨n + k, ?_, ?_⟩
      · rw [add_mul]
        omega
      · rw [pool]
        show _ ≤ (s.pool idx).top + _
        omega
    · intro i small' cell
      have := inv.beyond small room small' cell
      have := bucketSz_pos i
      omega
  have member : ∀ i, ∀ hdr ∈ update cells idx
      (newCells (s.pool idx).top (bucketSz idx) HEAP_INCREMENT ++ cells idx) i,
      hdr ∈ cells i ∨ (i = idx ∧ ∃ k < HEAP_INCREMENT, hdr = (s.pool idx).top + k * bucketSz idx) := by
    intro i hdr has
    by_cases same : i = idx
    · subst same
      rw [update_self] at has
      rcases mem_append.mp has with fresh | old
      · exact .inr ⟨rfl, mem_newCells.mp fresh⟩
      · exact .inl old
    · rw [update_of_ne same] at has
      exact .inl has
  refine ⟨?_, kept⟩
  constructor
  · intro i small'
    by_cases same : i = idx
    · subst same
      rw [pool]
      exact room
    · rw [others i same]
      exact inv.separate i small'
  · intro i small'
    by_cases same : i = idx
    · subst same
      refine ⟨n + HEAP_INCREMENT, ?_⟩
      rw [pool, add_mul]
      show (s.pool i).top + _ = _
      omega
    · rw [others i same]
      exact inv.tops i small'
  · intro i small'
    by_cases same : i = idx
    · subst same
      rw [pool, update_self]
      exact chain
    · rw [others i same, update_of_ne same]
      refine (inv.chain i small').congr ?_
      intro hdr has
      exact (kept i small' hdr (inv.carved i small' hdr has)).nextAt
  · intro i small' hdr has
    rcases member i hdr has with old | ⟨rfl, k, below, rfl⟩
    · exact grew i hdr (inv.carved i small' hdr old)
    · exact (new k below).1
  · refine inv.nodup_update (nodup_append.mpr ⟨newCells_nodup (by omega) _, inv.nodup idx small, ?_⟩)
    rintro hdr fresh other old rfl
    obtain ⟨k, below, rfl⟩ := mem_newCells.mp fresh
    exact (new k below).2 idx small (inv.carved idx small _ old)
  · intro i small' hdr cell
    have old : Cell s i hdr → magicAt (grow_small idx true s).memory hdr = HEAP_MAGIC ∧
        sizeAt (grow_small idx true s).memory hdr = bucketSz i - HEADER_SIZE := by
      intro before
      have same := kept i small' hdr before
      have header := inv.headers i small' hdr before
      exact ⟨same.magicAt.trans header.1, same.sizeAt.trans header.2⟩
    by_cases same : i = idx
    · subst same
      rcases cell_grown (inv.tops i small) (by rw [pool]) cell with before | ⟨k, below, rfl⟩
      · exact old before
      · exact headers k below
    · obtain ⟨k, place, inside⟩ := cell
      rw [others i same] at inside
      exact old ⟨k, place, inside⟩
  · intro mem sz has
    obtain ⟨i, small', hdr, start, cell, fits⟩ := inv.blocks mem sz has
    exact ⟨i, small', hdr, start, grew i hdr cell, fits⟩
  · exact inv.liveNodup
  · intro i small' hdr has sz held
    rcases member i hdr has with old | ⟨rfl, k, below, rfl⟩
    · exact inv.apart i small' hdr old sz held
    · obtain ⟨j, small'', block, start, cell, _⟩ := inv.blocks _ sz held
      have equal : (s.pool i).top + k * bucketSz i = block := add_right_cancel start
      exact (new k below).2 j small'' (equal ▸ cell)

theorem Inv.grown (inv : Inv s cells)
    (small : idx < HEAP_POOLS) (room : Separate (grown idx mapped s)) :
    (∃ cells', Inv (Malloc.grown idx mapped s) cells') ∧
      (Malloc.grown idx mapped s).live = s.live ∧
      ∀ i < HEAP_POOLS, ∀ hdr, Cell s i hdr →
        SameHeader s.memory (Malloc.grown idx mapped s).memory hdr := by
  unfold Malloc.grown at *
  by_cases empty : (s.pool idx).free = 0
  · rw [if_pos empty] at room ⊢
    cases mapped with
    | false => exact ⟨⟨cells, inv⟩, rfl, fun _ _ _ _ _ _ _ => rfl⟩
    | true =>
      have top := room idx small
      have pool : ((grow_small idx true s).pool idx).top =
          (s.pool idx).top + bucketSz idx * HEAP_INCREMENT := by
        show (update s.pool idx _ idx).top = _
        rw [update_self]
      rw [pool] at top
      obtain ⟨kept, same⟩ := inv.grow small top
      exact ⟨⟨_, kept⟩, rfl, same⟩
  · rw [if_neg empty]
    exact ⟨⟨cells, inv⟩, rfl, fun _ _ _ _ _ _ _ => rfl⟩

/-- What a step keeps of the headers of the blocks that the program had and has. -/
def KeepsHeaders (s s' : State) : Prop :=
  ∀ mem sz, (mem, sz) ∈ s.live → (mem, sz) ∈ s'.live →
    SameHeader s.memory s'.memory (mem - HEADER_SIZE)

theorem Inv.step_malloc (inv : Inv s cells) (step : Step s (.malloc sz mapped) s') :
    (∃ cells', Inv s' cells') ∧ KeepsHeaders s s' := by
  obtain ⟨moved, allowed, separate⟩ := step
  have small : ¬ HEAP_MAX_POOLSIZE < sz := not_lt.mpr allowed
  obtain ⟨idxSmall, fits⟩ := size_to_idx_spec allowed
  simp only [apply, malloc, if_neg small, malloc_small, some.injEq] at moved
  have keeps : ∀ t : State, t.memory = (Malloc.grown (size_to_idx sz) mapped s).memory →
      Separate (Malloc.grown (size_to_idx sz) mapped s) → KeepsHeaders s t := by
    intro t memory room mem sz' has _
    obtain ⟨idx, idxSmall', cell, _⟩ := inv.block has
    rw [memory]
    exact (inv.grown idxSmall room).2.2 idx idxSmall' _ cell
  by_cases none' : ((Malloc.grown (size_to_idx sz) mapped s).pool (size_to_idx sz)).free = 0
  · simp only [none', if_true] at moved
    subst moved
    exact ⟨(inv.grown idxSmall separate).1, keeps _ rfl separate⟩
  · have block : ((Malloc.grown (size_to_idx sz) mapped s).pool (size_to_idx sz)).free +
        HEADER_SIZE ≠ 0 := by
      omega
    simp only [none', if_false, block] at moved
    subst moved
    have room : Separate (Malloc.grown (size_to_idx sz) mapped s) := by
      intro i small'
      have top := separate i small'
      by_cases same : i = size_to_idx sz
      · subst same
        simpa using top
      · simpa [update_of_ne same] using top
    obtain ⟨⟨cells', grownInv⟩, live, _⟩ := inv.grown idxSmall room
    exact ⟨grownInv.take idxSmall none' fits, keeps _ rfl room⟩

theorem Inv.step_free (inv : Inv s cells)
    (step : Step s (.free mem) s') : (∃ cells', Inv s' cells') ∧ KeepsHeaders s s' := by
  obtain ⟨moved, allowed, _⟩ := step
  have nonzero : ∀ mem' sz, (mem', sz) ∈ s.live → mem' ≠ 0 := by
    intro mem' sz has zero
    obtain ⟨_, _, hdr, start, _⟩ := inv.blocks mem' sz has
    unfold HEADER_SIZE at start
    omega
  rcases allowed with rfl | ⟨sz, has⟩
  · have all : s.live.filter (fun block => block.1 ≠ 0) = s.live := by
      refine filter_eq_self.mpr ?_
      intro block member
      simpa using nonzero block.1 block.2 member
    have same : s' = s := by
      simp only [apply, free, if_true, map_some, some.injEq] at moved
      rw [← moved, all]
    subst same
    exact ⟨⟨cells, inv⟩, fun _ _ _ _ _ _ _ => rfl⟩
  · obtain ⟨idx, small, hdr, rfl, cell, _, result⟩ := inv.free_eq has
    simp only [apply, result, map_some, some.injEq] at moved
    subst moved
    refine ⟨⟨_, inv.put small cell ⟨sz, has⟩⟩, ?_⟩
    intro mem' sz' before after place low high
    obtain ⟨i, small', cell', start, _⟩ := inv.block before
    have different : mem' - HEADER_SIZE ≠ hdr := by
      intro same
      have gone := (mem_filter.mp after).2
      rw [start, same] at gone
      simp at gone
    have := cell'.apart inv.separate small' small cell (.inl different)
    have := bucketSz_pos i
    have := bucketSz_pos idx
    exact setNext_outside _ _ _ (by unfold HEADER_SIZE at *; omega)

theorem Inv.step (inv : Inv s cells) {label : Label}
    (step : Step s label s') : (∃ cells', Inv s' cells') ∧ KeepsHeaders s s' := by
  cases label with
  | malloc sz mapped => exact inv.step_malloc step
  | free mem => exact inv.step_free step
  | write address byte =>
    obtain ⟨moved, allowed, _⟩ := step
    simp only [apply, some.injEq] at moved
    subst moved
    refine ⟨⟨cells, inv.write allowed⟩, ?_⟩
    intro mem sz has _
    obtain ⟨block, size, has', low, high⟩ := allowed
    obtain ⟨idx, small, cell, _⟩ := inv.block has
    exact inv.write_spares byte has' low high small cell

theorem initial_inv (memory : Memory) : Inv (initial memory) (fun _ => []) where
  separate := fun idx _ => base_le (Nat.le_succ idx)
  tops := fun idx _ => ⟨0, by simp [initial]⟩
  chain := fun _ _ => rfl
  carved := by simp
  nodup := by simp
  headers := by
    rintro idx _ hdr ⟨k, place, inside⟩
    have large := bucketSz_pos idx
    have : hdr + bucketSz idx ≤ base idx := inside
    omega
  blocks := by simp [initial]
  liveNodup := nodup_nil
  apart := by simp

theorem reachable_inv {labels : List Label}
    (ran : Run Step (initial memory) labels s) : ∃ cells, Inv s cells :=
  ran.invariant (fun s => ∃ cells, Inv s cells)
    (fun _ _ _ inv step => (inv.choose_spec.step step).1) ⟨_, initial_inv memory⟩

/-- The cells of two blocks have no byte in common. -/
def CellsApart (s : State) (one other : Nat × Nat) : Prop :=
  ∀ i < HEAP_POOLS, ∀ j < HEAP_POOLS, Cell s i (one.1 - HEADER_SIZE) →
    Cell s j (other.1 - HEADER_SIZE) →
    one.1 - HEADER_SIZE + bucketSz i ≤ other.1 - HEADER_SIZE ∨
      other.1 - HEADER_SIZE + bucketSz j ≤ one.1 - HEADER_SIZE

theorem Inv.live_apart (inv : Inv s cells) : s.live.Pairwise (CellsApart s) := by
  refine (pairwise_map.mp inv.liveNodup).imp_of_mem ?_
  intro one other has has' different i small j small' cell cell'
  obtain ⟨_, _, _, start, _⟩ := inv.block has
  obtain ⟨_, _, _, start', _⟩ := inv.block has'
  refine cell.apart inv.separate small small' cell' (.inl ?_)
  omega

theorem Inv.one_list (inv : Inv s cells)
    (small : i < HEAP_POOLS) (small' : j < HEAP_POOLS) (listed : hdr ∈ cells i)
    (listed' : hdr ∈ cells j) : j = i := by
  by_contra different
  have := (inv.carved j small' hdr listed').apart inv.separate small' small
    (inv.carved i small hdr listed) (.inr different)
  have := bucketSz_pos i
  have := bucketSz_pos j
  omega

/-- The free lists: their cells belong to the pool, and no cell is listed twice or with the
program. -/
def FreeLists (s : State) (cells : Nat → List Nat) : Prop :=
  ∀ idx < HEAP_POOLS, Linked (nextAt s.memory) (s.pool idx).free (cells idx) ∧
    (cells idx).Nodup ∧
    ∀ hdr ∈ cells idx, Cell s idx hdr ∧ (∀ other < HEAP_POOLS, hdr ∈ cells other → other = idx) ∧
      ∀ sz, (hdr + HEADER_SIZE, sz) ∉ s.live

/-- After any calls of `malloc` for small blocks and of `free`, and any stores of the program inside
its blocks, each block lies in its cell, the cells of the blocks are apart, `free` returns a cell
to the list of its pool, the free lists are sound, and no step changes the header of a block. -/
theorem heap_sound {memory : Memory} {labels : List Label} {s : State}
    (ran : Run Step (initial memory) labels s) :
    (∀ mem sz, (mem, sz) ∈ s.live → ∃ idx < HEAP_POOLS, Cell s idx (mem - HEADER_SIZE) ∧
      mem - HEADER_SIZE + HEADER_SIZE = mem ∧ mem + sz ≤ mem - HEADER_SIZE + bucketSz idx ∧
      size_to_idx (sizeAt s.memory (mem - HEADER_SIZE)) = idx ∧
      ∃ s', free mem s = some s' ∧ (s'.pool idx).free = mem - HEADER_SIZE) ∧
    s.live.Pairwise (CellsApart s) ∧
    (∃ cells, FreeLists s cells) ∧
    ∀ label s', Step s label s' → KeepsHeaders s s' := by
  obtain ⟨cells, inv⟩ := reachable_inv ran
  refine ⟨?_, inv.live_apart, ⟨cells, ?_⟩, fun label s' step => (inv.step step).2⟩
  · intro mem sz has
    obtain ⟨idx, small, hdr, rfl, cell, route, result⟩ := inv.free_eq has
    obtain ⟨i, small', block, start, cell', fits⟩ := inv.blocks _ sz has
    have same : block = hdr := (add_right_cancel start).symm
    rw [same] at cell'
    have pools : i = idx := by
      by_contra different
      have := cell'.apart inv.separate small' small cell (.inr different)
      have := bucketSz_pos i
      have := bucketSz_pos idx
      omega
    subst pools
    rw [Nat.add_sub_cancel]
    refine ⟨i, small, cell, rfl, by omega, route, _, result, ?_⟩
    show (update s.pool i { s.pool i with free := hdr } i).free = hdr
    rw [update_self]
  · intro idx small
    refine ⟨inv.chain idx small, inv.nodup idx small, ?_⟩
    intro hdr listed
    refine ⟨inv.carved idx small hdr listed, ?_, inv.apart idx small hdr listed⟩
    intro other small' listed'
    exact inv.one_list small small' listed listed'

theorem heap_sound_two_blocks : ∃ s,
    Run Step (initial fun _ => 0)
      [.malloc 10 true, .malloc 20 true, .malloc 30 true, .free 0x400000f90] s ∧
    s.live = [(0x400000f50, 30), (0x400000fd0, 10)] ∧ s.live.Pairwise (CellsApart s) ∧
      ∀ block ∈ s.live, ∃ idx < HEAP_POOLS, Cell s idx (block.1 - HEADER_SIZE) := by
  have ran : ∃ s, Run Step (initial fun _ => 0)
      [.malloc 10 true, .malloc 20 true, .malloc 30 true, .free 0x400000f90] s ∧
      s.live = [(0x400000f50, 30), (0x400000fd0, 10)] :=
    ⟨_, Run.cons ⟨rfl, (by decide : 10 ≤ HEAP_MAX_POOLSIZE), by decide +kernel⟩
      (Run.cons ⟨rfl, (by decide : 20 ≤ HEAP_MAX_POOLSIZE), by decide +kernel⟩
      (Run.cons ⟨rfl, (by decide : 30 ≤ HEAP_MAX_POOLSIZE), by decide +kernel⟩
      (Run.single ⟨rfl, .inr ⟨20, by decide +kernel⟩, by decide +kernel⟩))), by decide +kernel⟩
  obtain ⟨s, ran, live⟩ := ran
  have sound := heap_sound ran
  refine ⟨s, ran, live, sound.2.1, fun block has => ?_⟩
  obtain ⟨idx, small, cell, _⟩ := sound.1 block.1 block.2 has
  exact ⟨idx, small, cell⟩

def pagesEnd (block : Nat × Nat) : Nat := block.1 - HEADER_SIZE + realSz block.2

/-- A call for a large block whose last page has room for the header. The size has to fit into the
32 bits of its field, and the pages into the address space. -/
def LargeStep (s : State) (sz : Nat) (s' : State) : Prop :=
  apply s (.malloc sz true) = some s' ∧ HEAP_MAX_POOLSIZE < sz ∧
    (0 < sz % 4096 ∧ sz % 4096 ≤ 4096 - HEADER_SIZE) ∧ sz < 2 ^ 32 - 4096 ∧
    s.largeTop + realSz sz < word64

structure Large (s : State) (block : Nat × Nat) : Prop where
  start : HEADER_SIZE ≤ block.1
  large : HEAP_MAX_POOLSIZE < block.2
  inside : block.1 + block.2 ≤ pagesEnd block
  below : pagesEnd block ≤ s.largeTop
  magic : magicAt s.memory (block.1 - HEADER_SIZE) = HEAP_MAGIC
  size : sizeAt s.memory (block.1 - HEADER_SIZE) = realSz block.2

def Above (later earlier : Nat × Nat) : Prop := pagesEnd earlier ≤ later.1 - HEADER_SIZE

theorem Large.keep {block : Nat × Nat} (large : Large s block) (size : Nat) {top : Nat}
    (above : s.largeTop ≤ top) (live : List (Nat × Nat)) :
    Large { s with memory := setHeader s.memory s.largeTop size 0, largeTop := top, live := live }
      block := by
  have same : SameHeader s.memory (setHeader s.memory s.largeTop size 0) (block.1 - HEADER_SIZE) := by
    intro place low high
    have start := large.start
    have inside := large.inside
    have below := large.below
    exact setHeader_outside _ _ _ _ (.inl (by omega))
  exact { large with
    below := large.below.trans above
    magic := same.magicAt.trans large.magic
    size := same.sizeAt.trans large.size }

theorem large_step (blocks : ∀ block ∈ s.live, Large s block) (apart : s.live.Pairwise Above)
    (step : LargeStep s sz s') : (∀ block ∈ s'.live, Large s' block) ∧ s'.live.Pairwise Above := by
  obtain ⟨called, large, room, small, space⟩ := step
  have fits : HEADER_SIZE + sz ≤ realSz sz ∧ realSz sz < 2 ^ 32 := by
    unfold realSz HEADER_SIZE word64 at *
    omega
  rw [apply, malloc, if_pos large] at called
  obtain rfl := some.inj called
  have top : add64 s.largeTop (realSz sz) = s.largeTop + realSz sz := add64_of_lt space
  have pages : pagesEnd (s.largeTop + HEADER_SIZE, sz) = s.largeTop + realSz sz := by
    rw [pagesEnd, Nat.add_sub_cancel]
  obtain ⟨magic, size, _⟩ :=
    setHeader_fields s.memory s.largeTop _ fits.2 (show 0 < word64 by decide)
  have new : (s.largeTop + HEADER_SIZE) + sz ≤ pagesEnd (s.largeTop + HEADER_SIZE, sz) := by omega
  refine ⟨forall_mem_cons.mpr ⟨?_, fun block has => ?_⟩, pairwise_cons.mpr ⟨?_, apart⟩⟩
  · exact ⟨Nat.le_add_left .., large, new, (pages.trans top.symm).le, magic, size⟩
  · exact (blocks block has).keep _ ((Nat.le_add_right ..).trans top.symm.le) _
  · exact fun block has => (blocks block has).below

/-- After any calls for large blocks that leave room for the header, each block lies in the pages
mapped for it, which no other block or header shares, and `free` unmaps just these pages. -/
theorem malloc_large_apart {sizes : List Nat}
    (ran : Run LargeStep (initial memory) sizes s) :
    (∀ block ∈ s.live, block.1 + block.2 ≤ pagesEnd block ∧
      sizeAt s.memory (block.1 - HEADER_SIZE) = realSz block.2 ∧ free block.1 s = some s) ∧
    s.live.Pairwise Above := by
  obtain ⟨blocks, apart⟩ := ran.invariant
    (fun s => (∀ block ∈ s.live, Large s block) ∧ s.live.Pairwise Above)
    (fun _ _ _ inv step => large_step inv.1 inv.2 step) ⟨nofun, .nil⟩
  refine ⟨fun block has => ?_, apart⟩
  obtain ⟨start, large, inside, _, magic, size⟩ := blocks block has
  refine ⟨inside, size, ?_⟩
  unfold pagesEnd at inside
  have positive : block.1 ≠ 0 := by
    unfold HEADER_SIZE at start
    omega
  rw [free, if_neg positive, if_neg (not_not.mpr magic), if_pos (by rw [size]; omega)]

theorem malloc_large_apart_two : ∃ s, Run LargeStep (initial fun _ => 0) [131073, 200000] s ∧
    s.live = [(0x4C021010, 200000), (0x4C000010, 131073)] ∧ s.live.Pairwise Above ∧
    sizeAt s.memory 0x4C000000 = 135168 := by
  have ran : ∃ s, Run LargeStep (initial fun _ => 0) [131073, 200000] s ∧
      s.live = [(0x4C021010, 200000), (0x4C000010, 131073)] :=
    ⟨_, Run.cons ⟨rfl, by decide, by decide, by decide, by decide⟩
      (Run.single ⟨rfl, by decide, by decide, by decide, by decide⟩), rfl⟩
  obtain ⟨s, ran, live⟩ := ran
  have apart := malloc_large_apart ran
  exact ⟨s, ran, live, apart.2, (apart.1 (0x4C000010, 131073) (by simp [live])).2.1⟩

/-- A block of a whole number of pages runs over the header of the next block. -/
theorem malloc_large_overlaps : ∃ s s',
    apply (initial fun _ => 0) (.malloc 131072 true) = some s ∧
    apply s (.malloc 131072 true) = some s' ∧
    s'.live = [(0x4C020010, 131072), (0x4C000010, 131072)] ∧
    0x4C020010 - HEADER_SIZE < 0x4C000010 + 131072 := ⟨_, _, rfl, rfl, rfl, by decide⟩

end BoringOs.Malloc
