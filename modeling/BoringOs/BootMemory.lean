import BoringOs.PAllocRegions
import BoringOs.SystemMap

/-! The memory map loop of `MachineBoot_Entry` and `MachineBoot_AddMem` of `sys/amd64/mbentry.c`. -/

namespace BoringOs.Boot

open PAlloc PMap List

def MULTIBOOT_MEMORY_AVAILABLE : Nat := 1

def MAX_REGIONS : Nat := 16

/-- The fields of `multiboot_memory_map_t` that are read. -/
structure MmapEntry where
  addr : Nat
  len : Nat
  type : Nat

structure Region where
  start : Nat
  len : Nat
  deriving DecidableEq

def record (regions : List Region) (mmap : MmapEntry) : Option (List Region) :=
  if mmap.type = MULTIBOOT_MEMORY_AVAILABLE then
    if regions.length < MAX_REGIONS then some (regions ++ [⟨mmap.addr, mmap.len⟩]) else none
  else some regions

def machineBoot_Entry (mmap : List MmapEntry) : Option (List Region) := mmap.foldlM record []

def initRamEnd : Nat := 32 * 1024 * 1024

/-- The arguments of `PAlloc_AddRegion` for one region, unless it is skipped. -/
def addMem (region : Region) : Option (Nat × Nat) :=
  if add64 region.start region.len < initRamEnd then none
  else if region.start < initRamEnd then
    some (add64 initRamEnd MEM_DIRECTMAP_BASE, initRamEnd - region.start)
  else some (add64 region.start MEM_DIRECTMAP_BASE, region.len)

/-- The calls of `PAlloc_AddRegion`. -/
def machineBoot_AddMem (regions : List Region) : List (Nat × Nat) := regions.filterMap addMem

def DMVA2PA (dmva : Nat) : Nat := (dmva + word64 - MEM_DIRECTMAP_BASE) % word64

def callPages (call : Nat × Nat) : List Nat := List.range' (DMVA2PA call.1 / PGSIZE) (call.2 / PGSIZE)

def passedPages (calls : List (Nat × Nat)) : List Nat := calls.flatMap callPages

theorem dMVA2PA_add {pa : Nat} (small : pa < word64) : DMVA2PA (add64 pa MEM_DIRECTMAP_BASE) = pa := by
  unfold DMVA2PA add64 MEM_DIRECTMAP_BASE
  unfold word64 at *
  omega

def available (mmap : List MmapEntry) : List Region :=
  (mmap.filter (fun entry => entry.type = MULTIBOOT_MEMORY_AVAILABLE)).map
    (fun entry => ⟨entry.addr, entry.len⟩)

theorem available_cons (entry : MmapEntry) (rest : List MmapEntry) : available (entry :: rest) =
    if entry.type = MULTIBOOT_MEMORY_AVAILABLE then ⟨entry.addr, entry.len⟩ :: available rest
    else available rest := by
  unfold available
  by_cases free : entry.type = MULTIBOOT_MEMORY_AVAILABLE <;> simp [free]

theorem foldlM_record (mmap : List MmapEntry) (regions : List Region)
    (few : (regions ++ available mmap).length ≤ MAX_REGIONS) :
    mmap.foldlM record regions = some (regions ++ available mmap) := by
  induction mmap generalizing regions with
  | nil => simp [available]
  | cons entry rest ih =>
    rw [foldlM_cons, record]
    rw [available_cons] at few ⊢
    by_cases free : entry.type = MULTIBOOT_MEMORY_AVAILABLE
    · simp only [free, if_true, length_append, length_cons] at few ⊢
      rw [if_pos (by omega), Option.bind_eq_bind, Option.bind_some, ih _ (by simp; omega),
        append_assoc, singleton_append]
    · simp only [free, if_false] at few ⊢
      exact ih regions few

theorem machineBoot_Entry_records {mmap : List MmapEntry} (few : (available mmap).length ≤ MAX_REGIONS) :
    machineBoot_Entry mmap = some (available mmap) :=
  foldlM_record mmap [] few

section

namespace Region

def Holds (region : Region) (address : Nat) : Prop :=
  region.start ≤ address ∧ address < region.start + region.len

/-- A range of physical addresses made of pages. -/
structure Formed (region : Region) : Prop where
  start : region.start % PGSIZE = 0
  len : region.len % PGSIZE = 0
  first : region.start < word64
  bound : region.start + region.len ≤ word64

def Apart (left right : Region) : Prop := ∀ address, ¬ (left.Holds address ∧ right.Holds address)

/-- A region across the 32 MiB boundary must have as much behind it as before it. The sum of start
and length must not be zero in 64 bits. -/
def Kept (region : Region) : Prop :=
  region.start + region.len < word64 ∧
    (region.start < initRamEnd → initRamEnd ≤ region.start + region.len →
      region.start + region.len - initRamEnd = initRamEnd - region.start)

/-- The pages that `PAlloc_AddRegion` is given for a region. -/
def pages (region : Region) : List Nat := (addMem region).elim [] callPages

end Region

/-- The pages above the boundary, each once. -/
def Exact (regions : List Region) (given : List Nat) : Prop :=
  given.Nodup ∧ ∀ pg, pg ∈ given ↔
    initRamEnd ≤ pg * PGSIZE ∧ ∃ region ∈ regions, region.Holds (pg * PGSIZE)

variable {region other : Region} {regions : List Region} {pg : Nat}

instance : Std.Symm Region.Apart :=
  ⟨fun _ _ apart address ⟨left, right⟩ => apart address ⟨right, left⟩⟩

instance : Std.Symm (Function.onFun List.Disjoint Region.pages) :=
  ⟨fun _ _ disjoint _ left right => disjoint right left⟩

theorem passedPages_eq (regions : List Region) :
    passedPages (machineBoot_AddMem regions) = regions.flatMap Region.pages := by
  unfold passedPages machineBoot_AddMem
  induction regions with
  | nil => rfl
  | cons region rest ih =>
    rw [filterMap_cons, flatMap_cons, ← ih, Region.pages]
    cases addMem region <;> simp

theorem pages_nodup (region : Region) : region.pages.Nodup := by
  unfold Region.pages
  cases addMem region with
  | none => exact nodup_nil
  | some call => exact nodup_range'

theorem mem_pages_iff (formed : region.Formed) : pg ∈ region.pages ↔
    initRamEnd ≤ pg * PGSIZE ∧ region.start + region.len < word64 ∧
      ((initRamEnd ≤ region.start ∧ region.Holds (pg * PGSIZE)) ∨
        (region.start < initRamEnd ∧ initRamEnd ≤ region.start + region.len ∧
          pg * PGSIZE < initRamEnd + (initRamEnd - region.start))) := by
  obtain ⟨aligned, whole, first, bound⟩ := formed
  unfold Region.pages addMem Region.Holds
  by_cases inside : region.start + region.len < word64
  · rw [add64_of_lt inside]
    split
    · simp only [Option.elim_none, not_mem_nil, false_iff]
      omega
    · split
      · have base : DMVA2PA (add64 initRamEnd MEM_DIRECTMAP_BASE) = initRamEnd := dMVA2PA_add (by decide)
        simp only [Option.elim_some, callPages, mem_range'_1, base]
        unfold initRamEnd PGSIZE at *
        omega
      · have base : DMVA2PA (add64 region.start MEM_DIRECTMAP_BASE) = region.start :=
          dMVA2PA_add (by omega)
        simp only [Option.elim_some, callPages, mem_range'_1, base]
        unfold initRamEnd PGSIZE at *
        omega
  · -- The region ends where the addresses do, and the sum of the source is 0.
    have wraps : add64 region.start region.len = 0 := by
      rw [add64, show region.start + region.len = word64 by omega, Nat.mod_self]
    rw [wraps, if_pos (by decide)]
    simp only [Option.elim_none, not_mem_nil, false_iff]
    omega

theorem mem_pages_of_kept (formed : region.Formed) (kept : region.Kept) :
    pg ∈ region.pages ↔ initRamEnd ≤ pg * PGSIZE ∧ region.Holds (pg * PGSIZE) := by
  obtain ⟨inside, clip⟩ := kept
  rw [mem_pages_iff formed]
  unfold Region.Holds
  omega

theorem eq_of_across (apart : regions.Pairwise Region.Apart) (formed : ∀ region ∈ regions, region.Formed)
    (left : region ∈ regions) (right : other ∈ regions)
    (across : region.start < initRamEnd ∧ initRamEnd ≤ region.start + region.len)
    (others : other.start < initRamEnd ∧ initRamEnd ≤ other.start + other.len) : region = other := by
  by_contra different
  have aligned := (formed region left).start
  have aligned' := (formed other right).start
  refine apart.forall left right different (initRamEnd - PGSIZE) ?_
  unfold Region.Holds
  unfold initRamEnd PGSIZE at *
  omega

section

variable (formed : ∀ region ∈ regions, region.Formed) (apart : regions.Pairwise Region.Apart)
include formed apart

theorem exact_of_kept (kept : ∀ region ∈ regions, region.Kept) :
    Exact regions (regions.flatMap Region.pages) := by
  constructor
  · rw [nodup_flatMap]
    refine ⟨fun region _ => pages_nodup region, apart.imp_of_mem ?_⟩
    intro left right mem mem' separate pg inLeft inRight
    have first := ((mem_pages_of_kept (formed left mem) (kept left mem)).mp inLeft).2
    have second := ((mem_pages_of_kept (formed right mem') (kept right mem')).mp inRight).2
    exact separate _ ⟨first, second⟩
  · intro pg
    rw [mem_flatMap]
    constructor
    · rintro ⟨region, mem, given⟩
      have here := (mem_pages_of_kept (formed region mem) (kept region mem)).mp given
      exact ⟨here.1, region, mem, here.2⟩
    · rintro ⟨above, region, mem, holds⟩
      exact ⟨region, mem, (mem_pages_of_kept (formed region mem) (kept region mem)).mpr ⟨above, holds⟩⟩

theorem given_by_own (mem : region ∈ regions) (holds : region.Holds (pg * PGSIZE))
    (alone : ∀ other ∈ regions, other ≠ region → other.start < initRamEnd →
      initRamEnd ≤ other.start + other.len → 2 * initRamEnd ≤ pg * PGSIZE)
    (given : pg ∈ regions.flatMap Region.pages) : pg ∈ region.pages := by
  obtain ⟨other, mem', given⟩ := mem_flatMap.mp given
  by_cases same : other = region
  · rwa [same] at given
  obtain ⟨above, inside, passed | ⟨low, high, clipped⟩⟩ := (mem_pages_iff (formed other mem')).mp given
  · exact absurd ⟨passed.2, holds⟩ (apart.forall mem' mem same _)
  · have far := alone other mem' same low high
    omega

section

variable (exact : Exact regions (regions.flatMap Region.pages))
include exact

theorem inside_of_exact (mem : region ∈ regions) : region.start + region.len < word64 := by
  obtain ⟨aligned, whole, first, bound⟩ := formed region mem
  by_contra wraps
  have holds : region.Holds ((word64 / PGSIZE - 1) * PGSIZE) := by
    unfold Region.Holds
    unfold PGSIZE word64 at *
    omega
  have given := (exact.2 _).mpr ⟨by decide, region, mem, holds⟩
  have own := given_by_own formed apart mem holds (fun _ _ _ _ _ => by decide) given
  exact wraps ((mem_pages_iff (formed region mem)).mp own).2.1

theorem not_exact_of_long (mem : region ∈ regions) (low : region.start < initRamEnd)
    (high : initRamEnd ≤ region.start + region.len) :
    region.start + region.len - initRamEnd ≤ initRamEnd - region.start := by
  obtain ⟨aligned, whole, first, bound⟩ := formed region mem
  by_contra long
  have page : (2 * initRamEnd - region.start) / PGSIZE * PGSIZE = 2 * initRamEnd - region.start := by
    unfold initRamEnd PGSIZE at *
    omega
  have holds : region.Holds ((2 * initRamEnd - region.start) / PGSIZE * PGSIZE) := by
    rw [page]
    unfold Region.Holds
    omega
  have given := (exact.2 _).mpr ⟨by rw [page]; omega, region, mem, holds⟩
  have alone : ∀ other ∈ regions, other ≠ region → other.start < initRamEnd →
      initRamEnd ≤ other.start + other.len →
        2 * initRamEnd ≤ (2 * initRamEnd - region.start) / PGSIZE * PGSIZE :=
    fun other mem' different low' high' =>
      absurd (eq_of_across apart formed mem' mem ⟨low', high'⟩ ⟨low, high⟩) different
  have own := given_by_own formed apart mem holds alone given
  obtain ⟨_, _, passed | clipped⟩ := (mem_pages_iff (formed region mem)).mp own
  · omega
  · omega

theorem not_exact_of_short (mem : region ∈ regions) (low : region.start < initRamEnd)
    (high : initRamEnd ≤ region.start + region.len) :
    initRamEnd - region.start ≤ region.start + region.len - initRamEnd := by
  obtain ⟨aligned, whole, first, bound⟩ := formed region mem
  by_contra short
  have inside := inside_of_exact formed apart exact mem
  have page : (region.start + region.len) / PGSIZE * PGSIZE = region.start + region.len := by
    unfold PGSIZE at *
    omega
  have own : (region.start + region.len) / PGSIZE ∈ region.pages := by
    rw [mem_pages_iff (formed region mem), page]
    exact ⟨high, inside, .inr ⟨low, high, by omega⟩⟩
  obtain ⟨above, other, mem', holds⟩ := (exact.2 _).mp (mem_flatMap.mpr ⟨region, mem, own⟩)
  rw [page] at holds
  have different : other ≠ region := by
    intro same
    rw [same] at holds
    exact lt_irrefl _ holds.2
  have behind : initRamEnd ≤ other.start := by
    by_contra low'
    have high' : initRamEnd ≤ other.start + other.len := le_of_lt (lt_of_le_of_lt high holds.2)
    exact different (eq_of_across apart formed mem' mem ⟨by omega, high'⟩ ⟨low, high⟩)
  have twice : (region.start + region.len) / PGSIZE ∈ other.pages := by
    rw [mem_pages_iff (formed other mem'), page]
    exact ⟨high, inside_of_exact formed apart exact mem', .inl ⟨behind, holds⟩⟩
  exact (nodup_flatMap.mp exact.1).2.forall mem' mem different twice own

end

end

/-- The pages passed for up to sixteen disjoint regions are theirs above 32 MiB, each once, exactly
if a region across this boundary reaches as far behind it as before it. -/
theorem machineBoot_AddMem_exact_iff (mmap : List MmapEntry)
    (few : (available mmap).length ≤ MAX_REGIONS) (formed : ∀ region ∈ available mmap, region.Formed)
    (apart : (available mmap).Pairwise Region.Apart) :
    ∃ regions, machineBoot_Entry mmap = some regions ∧
      (Exact (available mmap) (passedPages (machineBoot_AddMem regions)) ↔
        ∀ region ∈ available mmap, region.Kept) := by
  refine ⟨_, machineBoot_Entry_records few, ?_⟩
  rw [passedPages_eq]
  constructor
  · intro exact region mem
    refine ⟨inside_of_exact formed apart exact mem, fun low high => ?_⟩
    exact le_antisymm (not_exact_of_long formed apart exact mem low high)
      (not_exact_of_short formed apart exact mem low high)
  · exact exact_of_kept formed apart

end

/-- The first page, one that is reserved, and 16 MiB to 48 MiB. -/
def evenMap : List MmapEntry := [⟨0, 4096, 1⟩, ⟨4096, 4096, 2⟩, ⟨2 ^ 24, 2 ^ 25, 1⟩]

theorem evenMap_available : available evenMap = [⟨0, 4096⟩, ⟨2 ^ 24, 2 ^ 25⟩] := rfl

theorem machineBoot_AddMem_exact_even : ∃ regions, machineBoot_Entry evenMap = some regions ∧
    Exact (available evenMap) (passedPages (machineBoot_AddMem regions)) := by
  have formed : ∀ region ∈ available evenMap, region.Formed := by
    rw [evenMap_available, forall_mem_cons, forall_mem_singleton]
    exact ⟨⟨by decide, by decide, by decide, by decide⟩, ⟨by decide, by decide, by decide, by decide⟩⟩
  have apart : (available evenMap).Pairwise Region.Apart := by
    rw [evenMap_available, pairwise_pair]
    intro address ⟨low, high⟩
    have below : address < 0 + 4096 := low.2
    have above : 2 ^ 24 ≤ address := high.1
    omega
  obtain ⟨regions, recorded, exact⟩ := machineBoot_AddMem_exact_iff evenMap (by decide) formed apart
  refine ⟨regions, recorded, exact.mpr ?_⟩
  rw [evenMap_available, forall_mem_cons, forall_mem_singleton]
  exact ⟨⟨by decide, fun _ high => absurd high (by decide)⟩, ⟨by decide, fun _ _ => by decide⟩⟩

/-- Of memory between 16 MiB and 64 MiB the last 16 MiB are not passed; behind memory that ends at
32 MiB, 16 MiB are passed that are not there. -/
theorem machineBoot_AddMem_not_exact :
    (Region.Holds ⟨2 ^ 24, 3 * 2 ^ 24⟩ (12288 * PGSIZE) ∧
      12288 ∉ passedPages (machineBoot_AddMem [⟨2 ^ 24, 3 * 2 ^ 24⟩])) ∧
    (¬ Region.Holds ⟨2 ^ 24, 2 ^ 24⟩ (8192 * PGSIZE) ∧
      8192 ∈ passedPages (machineBoot_AddMem [⟨2 ^ 24, 2 ^ 24⟩])) := by
  have lost : machineBoot_AddMem [⟨2 ^ 24, 3 * 2 ^ 24⟩] = [(0xFFFF800002000000, 2 ^ 24)] := by decide
  have invented : machineBoot_AddMem [⟨2 ^ 24, 2 ^ 24⟩] = [(0xFFFF800002000000, 2 ^ 24)] := by decide
  have pages : ∀ pg, pg ∈ passedPages [(0xFFFF800002000000, 2 ^ 24)] ↔ 8192 ≤ pg ∧ pg < 8192 + 4096 :=
    fun pg => by
      rw [passedPages, flatMap_singleton, callPages, mem_range'_1]
      exact Iff.rfl
  rw [lost, invented, pages, pages]
  unfold Region.Holds
  decide

end BoringOs.Boot
