import BoringOs.Lib.Runs
import BoringOs.PAlloc
import Mathlib.Data.List.Range

/-! The regions of the page allocator and its `PageInfo` table, after `sys/kern/palloc.c` and
`XMem_Allocate` of `sys/amd64/xmem.c`. The table is first put in front of the first region, and
moved into an `XMem` region by `PAlloc_LateInit`. How many page tables `PMap_SystemMap` takes for it
is left open. -/

namespace BoringOs.PAlloc

open Runs Function List Option

/-- `MEM_XMAP_LEN / MAX_XMEM_REGIONS`. -/
def XMEM_MAXLENGTH : Nat := 2 ^ 27

def PAGEINFO_SIZE : Nat := 8

/-- The allocator, with what its callers know of it: `regions` are the pages of the regions
that were added, `added` those that have been on the free list, and `held` is the number of
allocations and retains minus the releases of a page. -/
structure System where
  frames : Frames
  /-- Whether `pageInfoTable` has been set, and whether to the `XMem` region. -/
  booted : Bool
  late : Bool
  pageInfoLength : Nat
  xmemLength : Nat
  bootPages : List Nat
  xmemPages : List Nat
  regions : List Nat
  added : List Nat
  held : Nat → Nat

/-- The pages that hold the `PageInfo` table, or have held it. -/
def System.tablePages (s : System) : List Nat := s.bootPages ++ s.xmemPages

/-- The bytes of the table in use. -/
def System.tableLength (s : System) : Nat := if s.late then s.xmemLength else s.pageInfoLength

def roundUp (length : Nat) : Nat := (length + PGSIZE - 1) / PGSIZE * PGSIZE

def tableBytes (stop : Nat) : Nat := roundUp (stop / PGSIZE * PAGEINFO_SIZE)

/-- The loop of `PAlloc_AddRegion`. -/
def insertPages : Nat → Nat → Frames → Frames
  | _, 0, s => s
  | pg, count + 1, s =>
    insertPages (pg + 1) count ({ s with
      freeList := pg :: s.freeList
      totalPages := s.totalPages + 1
      freePages := s.freePages + 1 }.setMagic pg FREEPAGE_MAGIC_FREE)

def System.insert (s : System) (first count : Nat) : System :=
  { s with frames := insertPages first count s.frames, added := List.range' first count ++ s.added }

/-- `PAlloc_AllocPage`. -/
def System.alloc (s : System) : Option (Nat × System) := do
  let (pg, frames) ← pAlloc_AllocPage s.frames
  return (pg, { s with frames := frames, held := Function.update s.held pg (s.held pg + 1) })

/-- The allocations of `PMap_SystemMap`. -/
def System.allocTables (s : System) : Nat → Option System
  | 0 => some s
  | count + 1 => do
      let (_, s) ← s.alloc
      s.allocTables count

/-- The loop of `XMem_Allocate`. -/
def xMemGrow (tables : Nat → Nat) : Nat → System → Option System
  | 0, s => some s
  | count + 1, s => do
      let (pg, t) ← s.alloc
      let u ← t.allocTables (tables t.xmemLength)
      xMemGrow tables count { u with
        xmemPages := pg :: u.xmemPages
        xmemLength := u.xmemLength + PGSIZE }

/-- `XMem_Allocate` of the region of the table, and the `Panic` behind it. -/
def xMem_Allocate (tables : Nat → Nat) (length : Nat) (s : System) : Option System :=
  if s.xmemLength > length then some s
  else if length > XMEM_MAXLENGTH then none
  else xMemGrow tables ((length - s.xmemLength + PGSIZE - 1) / PGSIZE) s

def pAlloc_AddRegion (tables : Nat → Nat) (start len : Nat) (s : System) : Option System :=
  if start % PGSIZE ≠ 0 then none
  else if len % PGSIZE ≠ 0 then none
  else
    let base := start / PGSIZE
    let stop := (start + len) / PGSIZE
    let s := { s with regions := List.range' base (len / PGSIZE) ++ s.regions }
    if s.booted = false then
      let pageInfoLength := tableBytes (start + len)
      let own := pageInfoLength / PGSIZE
      let refCount := fun pg =>
        if base ≤ pg ∧ pg < base + own then 1
        else if pg < base then 1
        else if pg < stop then 0
        else s.frames.refCount pg
      some (System.insert { s with
        frames := { s.frames with refCount := refCount }
        booted := true
        pageInfoLength := pageInfoLength
        bootPages := List.range' base own } (base + own) ((len + word64 - pageInfoLength) % word64 / PGSIZE))
    else if s.late = false then none
    else do
      let t ← xMem_Allocate tables (tableBytes (start + len)) s
      let refCount := fun pg => if base ≤ pg ∧ pg < stop then 0 else t.frames.refCount pg
      return System.insert { t with frames := { t.frames with refCount := refCount } } base (len / PGSIZE)

def pAlloc_LateInit (tables : Nat → Nat) (s : System) : Option System :=
  if s.booted ∧ s.late = false then do
    let t ← xMem_Allocate tables s.pageInfoLength s
    return { t with
      late := true
      frames := { t.frames with
        refCount := fun pg => if pg * PAGEINFO_SIZE < t.pageInfoLength then t.frames.refCount pg else 0 } }
  else none

inductive Op where
  | addRegion (tables : Nat → Nat) (start len : Nat)
  | lateInit (tables : Nat → Nat)
  | alloc
  | retain (pg : Nat)
  | release (pg : Nat)
  /-- A holder of a page writes to it. -/
  | write (pg i value : Nat)

def apply (s : System) : Op → Option System
  | .addRegion tables start len => pAlloc_AddRegion tables start len s
  | .lateInit tables => pAlloc_LateInit tables s
  | .alloc => s.alloc.map Prod.snd
  | .retain pg =>
    (pAlloc_Retain pg s.frames).map fun frames =>
      { s with frames := frames, held := Function.update s.held pg (s.held pg + 1) }
  | .release pg =>
    (pAlloc_Release pg s.frames).map fun frames =>
      { s with frames := frames, held := Function.update s.held pg (s.held pg - 1) }
  | .write pg i value =>
    if s.held pg ≠ 0 then
      some { s with frames := { s.frames with
        memory := Function.update s.frames.memory pg (Function.update (s.frames.memory pg) i value) } }
    else none

def Disjoint (s : System) : Op → Prop
  | .addRegion _ start len => start + len < word64 ∧
      ∀ pg, start / PGSIZE ≤ pg → pg < (start + len) / PGSIZE → pg ∉ s.regions
  | _ => True

/-- The first region has room for its table, and pages are retained and released by those who
hold them, fewer than `2 ^ 64` times. -/
def Disciplined (s : System) : Op → Prop
  | .addRegion _ start len => s.booted = false → tableBytes (start + len) ≤ len
  | .retain pg => s.held pg ≠ 0 ∧ pg ∉ s.tablePages ∧ s.held pg + 1 < word64
  | .release pg => s.held pg ≠ 0 ∧ pg ∉ s.tablePages
  | _ => True

/-- The allocator after `PAlloc_Init`. -/
structure Started (s : System) : Prop where
  frames : s.frames.freeList = [] ∧ s.frames.freePages = 0 ∧ s.frames.totalPages = 0
  table : s.booted = false ∧ s.late = false ∧ s.xmemLength = 0 ∧ s.bootPages = [] ∧ s.xmemPages = []
  pages : s.regions = [] ∧ s.added = [] ∧ ∀ pg, s.held pg = 0

/-- The free list, the reference counts and the counters agree, and the table is in pages that
cannot be handed out. -/
structure Agree (s : System) : Prop where
  free : ∀ pg ∈ s.added, (s.frames.refCount pg = 0 → s.frames.freeList.count pg = 1) ∧
    (s.frames.refCount pg ≠ 0 → s.frames.freeList.count pg = 0)
  freePages : s.frames.freePages = s.frames.freeList.length
  used : s.frames.totalPages - s.frames.freePages =
    (s.added.filter (fun pg => s.frames.refCount pg ≠ 0)).length
  counts : ∀ pg ∈ s.added, s.frames.refCount pg = s.held pg
  table : ∀ pg ∈ s.tablePages, pg ∉ s.frames.freeList
  fresh : ∀ pg t, s.alloc = some (pg, t) → pg ∈ s.added ∧ s.held pg = 0 ∧ pg ∉ s.tablePages

structure Inv (s : System) : Prop where
  nodup : s.frames.freeList.Nodup
  distinct : s.added.Nodup
  free : ∀ pg, pg ∈ s.frames.freeList ↔ pg ∈ s.added ∧ s.held pg = 0
  counts : ∀ pg ∈ s.added, s.frames.refCount pg = s.held pg
  holders : ∀ pg, s.held pg ≠ 0 → pg ∈ s.added
  freePages : s.frames.freePages = s.frames.freeList.length
  totalPages : s.frames.totalPages = s.added.length
  regions : ∀ pg ∈ s.added ++ s.bootPages, pg ∈ s.regions
  boot : ∀ pg ∈ s.bootPages, pg ∉ s.added
  xmem : ∀ pg ∈ s.xmemPages, pg ∈ s.added ∧ s.held pg = 1
  covered : ∀ pg ∈ s.added, pg * PAGEINFO_SIZE + PAGEINFO_SIZE ≤ s.tableLength
  early : s.booted = false → s.added = [] ∧ s.bootPages = [] ∧ s.late = false

variable {tables : Nat → Nat} {count start len : Nat} {frames : Frames}

section

variable {s t : System} {pg : Nat}

structure Taken (s : System) (pg : Nat) (t : System) : Prop where
  allocated : Allocated s.frames pg t.frames
  held : t.held = Function.update s.held pg (s.held pg + 1)
  same : t.booted = s.booted ∧ t.late = s.late ∧ t.pageInfoLength = s.pageInfoLength ∧
    t.xmemLength = s.xmemLength ∧ t.bootPages = s.bootPages ∧ t.xmemPages = s.xmemPages ∧
    t.regions = s.regions ∧ t.added = s.added

theorem alloc_takes (ran : s.alloc = some (pg, t)) : Taken s pg t := by
  obtain ⟨⟨page, frames⟩, allocated, result⟩ := bind_eq_some_iff.mp ran
  cases result
  exact ⟨pAlloc_AllocPage_allocates allocated, rfl, rfl, rfl, rfl, rfl, rfl, rfl, rfl, rfl⟩

theorem Inv.fresh (inv : Inv s) (taken : Taken s pg t) :
    pg ∈ s.added ∧ s.held pg = 0 ∧ pg ∉ s.tablePages := by
  have free : pg ∈ s.frames.freeList := by
    rw [taken.allocated.head]
    exact mem_cons_self
  obtain ⟨added, unheld⟩ := (inv.free pg).mp free
  refine ⟨added, unheld, ?_⟩
  intro member
  rcases mem_append.mp member with boot | xmem
  · exact inv.boot pg boot added
  · have := (inv.xmem pg xmem).2
    omega

theorem Inv.take (inv : Inv s) (taken : Taken s pg t) : Inv t := by
  obtain ⟨added, unheld, outside⟩ := inv.fresh taken
  obtain ⟨booted, late, length, xmemLength, bootPages, xmemPages, regions, pages⟩ := taken.same
  have held : ∀ x, t.held x = if x = pg then 1 else s.held x := by
    intro x
    rw [taken.held]
    by_cases same : x = pg
    · subst same
      simp [unheld]
    · simp [same]
  have nodup := inv.nodup
  rw [taken.allocated.head] at nodup
  obtain ⟨gone, rest⟩ := nodup_cons.mp nodup
  constructor
  · exact rest
  · rw [pages]
    exact inv.distinct
  · intro x
    rw [pages, held]
    have before := inv.free x
    rw [taken.allocated.head, mem_cons] at before
    by_cases same : x = pg
    · subst same
      simp [gone]
    · simpa [same] using before
  · intro x member
    rw [pages] at member
    rw [taken.allocated.refCount, held]
    by_cases same : x = pg
    · simp [same]
    · simpa [same] using inv.counts x member
  · intro x some
    rw [held] at some
    rw [pages]
    by_cases same : x = pg
    · rw [same]
      exact added
    · rw [if_neg same] at some
      exact inv.holders x some
  · rw [taken.allocated.counts.1, inv.freePages, taken.allocated.head]
    rfl
  · rw [taken.allocated.counts.2, inv.totalPages, pages]
  · rw [pages, bootPages, regions]
    exact inv.regions
  · rw [bootPages, pages]
    exact inv.boot
  · intro x member
    rw [xmemPages] at member
    obtain ⟨inside, one⟩ := inv.xmem x member
    have other : x ≠ pg := by
      rintro rfl
      omega
    rw [pages, held, if_neg other]
    exact ⟨inside, one⟩
  · rw [pages, System.tableLength, late, xmemLength, length]
    exact inv.covered
  · rw [booted, pages, bootPages, late]
    exact inv.early

structure Grown (s t : System) : Prop where
  inv : Inv t
  longer : s.xmemLength ≤ t.xmemLength
  same : t.booted = s.booted ∧ t.late = s.late ∧ t.pageInfoLength = s.pageInfoLength ∧
    t.regions = s.regions ∧ t.added = s.added ∧ t.bootPages = s.bootPages
  holders : ∀ x, s.held x ≠ 0 → t.held x = s.held x

theorem Grown.refl (inv : Inv s) : Grown s s :=
  ⟨inv, le_refl _, ⟨rfl, rfl, rfl, rfl, rfl, rfl⟩, fun _ _ => rfl⟩

theorem Grown.trans {u : System} (first : Grown s t) (second : Grown t u) : Grown s u := by
  obtain ⟨booted, late, length, regions, added, boot⟩ := first.same
  obtain ⟨booted', late', length', regions', added', boot'⟩ := second.same
  refine ⟨second.inv, le_trans first.longer second.longer, ⟨booted'.trans booted,
    late'.trans late, length'.trans length, regions'.trans regions, added'.trans added,
    boot'.trans boot⟩, ?_⟩
  intro x some
  have kept := first.holders x some
  rw [second.holders x (kept ▸ some), kept]

theorem Inv.grow_take (inv : Inv s) (taken : Taken s pg t) : Grown s t := by
  obtain ⟨booted, late, length, xmemLength, bootPages, _, regions, added⟩ := taken.same
  refine ⟨inv.take taken, le_of_eq xmemLength.symm,
    ⟨booted, late, length, regions, added, bootPages⟩, ?_⟩
  intro x some
  have other : x ≠ pg := by
    rintro rfl
    exact some (inv.fresh taken).2.1
  rw [taken.held, update_of_ne other]

theorem Inv.allocTables (inv : Inv s) (ran : s.allocTables count = some t) :
    Grown s t ∧ t.xmemLength = s.xmemLength ∧ t.xmemPages = s.xmemPages := by
  induction count generalizing s with
  | zero =>
    cases ran
    exact ⟨Grown.refl inv, rfl, rfl⟩
  | succ count ih =>
    obtain ⟨⟨pg, u⟩, first, rest⟩ := bind_eq_some_iff.mp ran
    have taken := alloc_takes first
    obtain ⟨grown, length, pages⟩ := ih (inv.take taken) rest
    obtain ⟨_, _, _, length', _, pages', _, _⟩ := taken.same
    exact ⟨(inv.grow_take taken).trans grown, length.trans length', pages.trans pages'⟩

theorem Inv.xMemGrow (inv : Inv s) (ran : xMemGrow tables count s = some t) :
    Grown s t ∧ t.xmemLength = s.xmemLength + count * PGSIZE := by
  induction count generalizing s with
  | zero =>
    cases ran
    exact ⟨Grown.refl inv, by omega⟩
  | succ count ih =>
    obtain ⟨⟨pg, u⟩, first, ran⟩ := bind_eq_some_iff.mp ran
    obtain ⟨v, second, ran⟩ := bind_eq_some_iff.mp ran
    have taken := alloc_takes first
    obtain ⟨added, unheld, _⟩ := inv.fresh taken
    obtain ⟨grown, length, pages⟩ := (inv.take taken).allocTables second
    obtain ⟨_, _, _, length', _, pages', _, added'⟩ := taken.same
    obtain ⟨_, late, pageInfo, _, added'', _⟩ := grown.same
    have kept := grown.inv
    have one : v.held pg = 1 := by
      have before : u.held pg = 1 := by
        rw [taken.held, update_self, unheld]
      rw [grown.holders pg (by omega), before]
    -- the page joins the table's region
    have joined : Inv { v with xmemPages := pg :: v.xmemPages, xmemLength := v.xmemLength + PGSIZE } := by
      refine ⟨kept.nodup, kept.distinct, kept.free, kept.counts, kept.holders, kept.freePages,
        kept.totalPages, kept.regions, kept.boot, ?_, ?_, kept.early⟩
      · intro x member
        rcases mem_cons.mp member with rfl | old
        · refine ⟨?_, one⟩
          show x ∈ v.added
          rw [added'', added']
          exact added
        · exact kept.xmem x old
      · intro x member
        refine le_trans (kept.covered x member) ?_
        unfold System.tableLength
        split
        · exact Nat.le_add_right _ _
        · exact le_rfl
    obtain ⟨more, final⟩ := ih joined ran
    have step : Grown v { v with xmemPages := pg :: v.xmemPages, xmemLength := v.xmemLength + PGSIZE } :=
      ⟨joined, Nat.le_add_right _ _, ⟨rfl, rfl, rfl, rfl, rfl, rfl⟩, fun _ _ => rfl⟩
    refine ⟨(inv.grow_take taken).trans (grown.trans (step.trans more)), ?_⟩
    rw [final]
    show v.xmemLength + PGSIZE + count * PGSIZE = _
    rw [length, length', Nat.succ_mul]
    omega

theorem Inv.xMem_Allocate (inv : Inv s) {length : Nat}
    (ran : xMem_Allocate tables length s = some t) : Grown s t ∧ length ≤ t.xmemLength := by
  unfold PAlloc.xMem_Allocate at ran
  split at ran
  · rename_i long
    cases ran
    exact ⟨Grown.refl inv, le_of_lt long⟩
  · split at ran
    · cases ran
    · obtain ⟨grown, final⟩ := inv.xMemGrow ran
      refine ⟨grown, ?_⟩
      rw [final]
      unfold PGSIZE
      omega

end

section

variable {s t : System}

theorem insertPages_inserts (first count : Nat) (s : Frames) :
    (insertPages first count s).freeList = (range' first count).reverse ++ s.freeList ∧
      (insertPages first count s).freePages = s.freePages + count ∧
      (insertPages first count s).totalPages = s.totalPages + count ∧
      (insertPages first count s).refCount = s.refCount := by
  induction count generalizing first s with
  | zero => exact ⟨rfl, rfl, rfl, rfl⟩
  | succ count ih =>
    obtain ⟨list, free, total, counts⟩ := ih (first + 1) ({ s with
      freeList := first :: s.freeList
      totalPages := s.totalPages + 1
      freePages := s.freePages + 1 }.setMagic first FREEPAGE_MAGIC_FREE)
    refine ⟨?_, ?_, ?_, counts⟩
    · rw [insertPages, list, range'_succ, reverse_cons, append_assoc]
      rfl
    · rw [insertPages, free]
      show s.freePages + 1 + count = _
      omega
    · rw [insertPages, total]
      show s.totalPages + 1 + count = _
      omega

theorem Inv.insert (inv : Inv s) {first count : Nat}
    (unknown : ∀ pg, first ≤ pg → pg < first + count → pg ∉ s.added ∧ pg ∉ s.bootPages)
    (zero : ∀ pg, first ≤ pg → pg < first + count → s.frames.refCount pg = 0)
    (listed : ∀ pg, first ≤ pg → pg < first + count → pg ∈ s.regions)
    (covered : ∀ pg, first ≤ pg → pg < first + count →
      pg * PAGEINFO_SIZE + PAGEINFO_SIZE ≤ s.tableLength)
    (booted : s.booted = true) : Inv (s.insert first count) := by
  obtain ⟨list, free, total, counts⟩ := insertPages_inserts first count s.frames
  have range : ∀ pg, pg ∈ range' first count ↔ first ≤ pg ∧ pg < first + count :=
    fun pg => mem_range'_1
  have new : (range' first count).Nodup := by simp [nodup_range']
  have unheld : ∀ pg, first ≤ pg → pg < first + count → s.held pg = 0 := by
    intro pg low high
    by_contra some
    exact (unknown pg low high).1 (inv.holders pg some)
  constructor
  · show (insertPages first count s.frames).freeList.Nodup
    rw [list]
    refine List.Nodup.append (nodup_reverse.mpr new) inv.nodup ?_
    intro pg member old
    obtain ⟨low, high⟩ := (range pg).mp (mem_reverse.mp member)
    exact (unknown pg low high).1 ((inv.free pg).mp old).1
  · refine List.Nodup.append new inv.distinct ?_
    intro pg member old
    obtain ⟨low, high⟩ := (range pg).mp member
    exact (unknown pg low high).1 old
  · intro pg
    show pg ∈ (insertPages first count s.frames).freeList ↔ pg ∈ range' first count ++ s.added ∧ _
    rw [list, mem_append, mem_append, mem_reverse, inv.free]
    constructor
    · rintro (new | ⟨old, zero⟩)
      · obtain ⟨low, high⟩ := (range pg).mp new
        exact ⟨.inl new, unheld pg low high⟩
      · exact ⟨.inr old, zero⟩
    · rintro ⟨new | old, zero⟩
      · exact .inl new
      · exact .inr ⟨old, zero⟩
  · intro pg member
    show (insertPages first count s.frames).refCount pg = s.held pg
    rw [counts]
    rcases mem_append.mp member with new | old
    · obtain ⟨low, high⟩ := (range pg).mp new
      rw [zero pg low high, unheld pg low high]
    · exact inv.counts pg old
  · exact fun pg some => mem_append_right _ (inv.holders pg some)
  · show (insertPages first count s.frames).freePages = (insertPages first count s.frames).freeList.length
    rw [free, list, inv.freePages]
    simp
    omega
  · show (insertPages first count s.frames).totalPages = (range' first count ++ s.added).length
    rw [total, inv.totalPages]
    simp
    omega
  · intro pg member
    rcases mem_append.mp member with some | boot
    · rcases mem_append.mp some with new | old
      · obtain ⟨low, high⟩ := (range pg).mp new
        exact listed pg low high
      · exact inv.regions pg (mem_append_left _ old)
    · exact inv.regions pg (mem_append_right _ boot)
  · intro pg boot member
    rcases mem_append.mp member with new | old
    · obtain ⟨low, high⟩ := (range pg).mp new
      exact (unknown pg low high).2 boot
    · exact inv.boot pg boot old
  · intro pg member
    obtain ⟨inside, one⟩ := inv.xmem pg member
    exact ⟨mem_append_right _ inside, one⟩
  · intro pg member
    rcases mem_append.mp member with new | old
    · obtain ⟨low, high⟩ := (range pg).mp new
      exact covered pg low high
    · exact inv.covered pg old
  · intro early
    exact absurd booted (by rw [show s.booted = false from early]; decide)

theorem le_tableBytes {pg stop : Nat} (below : pg < stop / PGSIZE) :
    pg * PAGEINFO_SIZE + PAGEINFO_SIZE ≤ tableBytes stop := by
  unfold tableBytes roundUp PAGEINFO_SIZE PGSIZE at *
  omega

theorem tableBytes_aligned (stop : Nat) : tableBytes stop % PGSIZE = 0 := Nat.mul_mod_left _ _

theorem Inv.addFirst (inv : Inv s) (early : s.booted = false)
    (small : start + len < word64) (room : tableBytes (start + len) ≤ len)
    (ran : pAlloc_AddRegion tables start len s = some t) : Inv t := by
  obtain ⟨none, noBoot, notLate⟩ := inv.early early
  have unadded : ∀ pg, pg ∉ s.added := by
    rw [none]
    nofun
  have unheld : ∀ pg, s.held pg = 0 := by
    intro pg
    by_contra some
    exact unadded pg (inv.holders pg some)
  have noXmem : s.xmemPages = [] := by
    refine eq_nil_iff_forall_not_mem.mpr fun pg member => ?_
    have := (inv.xmem pg member).2
    rw [unheld] at this
    cases this
  unfold pAlloc_AddRegion at ran
  split at ran
  · cases ran
  · rename_i startAligned
    split at ran
    · cases ran
    · rename_i lenAligned
      rw [not_not] at startAligned lenAligned
      dsimp only at ran
      rw [if_pos early] at ran
      have whole := tableBytes_aligned (start + len)
      have rest : (len + word64 - tableBytes (start + len)) % word64 = len - tableBytes (start + len) := by
        rw [show len + word64 - tableBytes (start + len) = len - tableBytes (start + len) + word64 by omega,
          Nat.add_mod_right]
        exact Nat.mod_eq_of_lt (by omega)
      cases ran
      rw [rest]
      have sum : start / PGSIZE + tableBytes (start + len) / PGSIZE +
          (len - tableBytes (start + len)) / PGSIZE = (start + len) / PGSIZE := by
        generalize tableBytes (start + len) = bytes at *
        unfold PGSIZE at *
        omega
      have span : start / PGSIZE + len / PGSIZE = (start + len) / PGSIZE := by
        unfold PGSIZE at *
        omega
      refine Inv.insert ⟨?_, ?_, ?_, ?_, ?_, ?_, ?_, ?_, ?_, ?_, ?_, ?_⟩ ?_ ?_ ?_ ?_ rfl
      · exact inv.nodup
      · exact inv.distinct
      · exact inv.free
      · exact fun pg member => absurd member (unadded pg)
      · exact inv.holders
      · exact inv.freePages
      · exact inv.totalPages
      · intro pg member
        change pg ∈ s.added ++ range' _ _ at member
        rw [none, nil_append, mem_range'_1] at member
        refine mem_append_left _ (mem_range'_1.mpr ⟨member.1, ?_⟩)
        unfold PGSIZE at *
        omega
      · exact fun pg _ => unadded pg
      · intro pg member
        rw [show s.xmemPages = [] from noXmem] at member
        cases member
      · exact fun pg member => absurd member (unadded pg)
      · intro booted
        cases booted
      · intro pg low _
        refine ⟨unadded pg, fun member => ?_⟩
        have := (mem_range'_1.mp member).2
        omega
      · intro pg low high
        have above : start / PGSIZE ≤ pg := Nat.le_trans (Nat.le_add_right _ _) low
        dsimp only
        rw [if_neg (by omega), if_neg (by omega), if_pos (by omega)]
      · intro pg low high
        have above : start / PGSIZE ≤ pg := Nat.le_trans (Nat.le_add_right _ _) low
        exact mem_append_left _ (mem_range'_1.mpr ⟨above, by omega⟩)
      · intro pg low high
        unfold System.tableLength
        dsimp only
        rw [notLate, if_neg (by decide)]
        exact le_tableBytes (by omega)

theorem Inv.addLater (inv : Inv s) (booted : s.booted = true)
    (apart : ∀ pg, start / PGSIZE ≤ pg → pg < (start + len) / PGSIZE → pg ∉ s.regions)
    (ran : pAlloc_AddRegion tables start len s = some t) : Inv t := by
  unfold pAlloc_AddRegion at ran
  split at ran
  · cases ran
  · rename_i startAligned
    split at ran
    · cases ran
    · rename_i lenAligned
      rw [not_not] at startAligned lenAligned
      dsimp only at ran
      rw [if_neg (by rw [booted]; decide)] at ran
      split at ran
      · cases ran
      · rename_i late
        rw [Bool.not_eq_false] at late
        obtain ⟨u, grown, result⟩ := bind_eq_some_iff.mp ran
        have span : start / PGSIZE + len / PGSIZE = (start + len) / PGSIZE := by
          unfold PGSIZE at *
          omega
        -- the pages of the region are recorded first
        have listed : Inv { s with regions := range' (start / PGSIZE) (len / PGSIZE) ++ s.regions } :=
          ⟨inv.nodup, inv.distinct, inv.free, inv.counts, inv.holders, inv.freePages, inv.totalPages,
            fun pg member => mem_append_right _ (inv.regions pg member), inv.boot, inv.xmem,
            inv.covered, inv.early⟩
        obtain ⟨growth, enough⟩ := listed.xMem_Allocate grown
        obtain ⟨booted', late', _, regions, added, boot⟩ := growth.same
        have kept := growth.inv
        have outside : ∀ pg, start / PGSIZE ≤ pg → pg < (start + len) / PGSIZE →
            pg ∉ u.added ∧ pg ∉ u.bootPages := by
          intro pg low high
          rw [added, boot]
          exact ⟨fun member => apart pg low high (inv.regions pg (mem_append_left _ member)),
            fun member => apart pg low high (inv.regions pg (mem_append_right _ member))⟩
        cases result
        have cleared : Inv { u with frames := { u.frames with refCount := fun pg =>
            if start / PGSIZE ≤ pg ∧ pg < (start + len) / PGSIZE then 0 else u.frames.refCount pg } } := by
          refine ⟨kept.nodup, kept.distinct, kept.free, ?_, kept.holders, kept.freePages,
            kept.totalPages, kept.regions, kept.boot, kept.xmem, kept.covered, kept.early⟩
          intro pg member
          have other : ¬ (start / PGSIZE ≤ pg ∧ pg < (start + len) / PGSIZE) :=
            fun inner => (outside pg inner.1 inner.2).1 member
          exact (if_neg other).trans (kept.counts pg member)
        refine cleared.insert ?_ ?_ ?_ ?_ ?_
        · exact fun pg low high => outside pg low (by omega)
        · intro pg low high
          exact if_pos ⟨low, by omega⟩
        · intro pg low high
          show pg ∈ u.regions
          rw [regions]
          exact mem_append_left _ (mem_range'_1.mpr ⟨low, high⟩)
        · intro pg low high
          have covers := le_tableBytes (show pg < (start + len) / PGSIZE by omega)
          unfold System.tableLength
          show _ ≤ if u.late = true then u.xmemLength else _
          rw [late', if_pos late]
          omega
        · exact booted'.trans booted

theorem Inv.lateInit (inv : Inv s) (ran : pAlloc_LateInit tables s = some t) : Inv t := by
  unfold pAlloc_LateInit at ran
  split at ran
  · rename_i ready
    obtain ⟨u, grown, result⟩ := bind_eq_some_iff.mp ran
    obtain ⟨growth, enough⟩ := inv.xMem_Allocate grown
    obtain ⟨booted, late, length, _, _, _⟩ := growth.same
    have kept := growth.inv
    have covered : ∀ pg ∈ u.added, pg * PAGEINFO_SIZE + PAGEINFO_SIZE ≤ u.pageInfoLength := by
      intro pg member
      have := kept.covered pg member
      rwa [System.tableLength, late, ready.2, if_neg (by decide)] at this
    cases result
    refine ⟨kept.nodup, kept.distinct, kept.free, ?_, kept.holders, kept.freePages,
      kept.totalPages, kept.regions, kept.boot, kept.xmem, ?_, ?_⟩
    · intro pg member
      have inside := covered pg member
      show (if _ then u.frames.refCount pg else 0) = u.held pg
      rw [if_pos (by unfold PAGEINFO_SIZE at *; omega)]
      exact kept.counts pg member
    · intro pg member
      have inside := covered pg member
      show _ ≤ u.xmemLength
      omega
    · intro early
      have : u.booted = false := early
      rw [booted, ready.1] at this
      cases this
  · cases ran

end

section

variable {s t : System} {pg : Nat}

theorem Inv.retain (inv : Inv s) (holds : s.held pg ≠ 0) (outside : pg ∉ s.tablePages)
    (few : s.held pg + 1 < word64) (ran : pAlloc_Retain pg s.frames = some frames) :
    Inv { s with frames := frames, held := update s.held pg (s.held pg + 1) } := by
  have added := inv.holders pg holds
  unfold pAlloc_Retain at ran
  split at ran
  · cases ran
    have held : ∀ x, update s.held pg (s.held pg + 1) x = 0 ↔ s.held x = 0 := by
      intro x
      by_cases same : x = pg
      · subst same
        simp [holds]
      · simp [same]
    refine ⟨inv.nodup, inv.distinct, ?_, ?_, ?_, inv.freePages, inv.totalPages, inv.regions,
      inv.boot, ?_, inv.covered, inv.early⟩
    · intro x
      exact (inv.free x).trans (and_congr_right fun _ => (held x).symm)
    · intro x member
      show update s.frames.refCount pg _ x = update s.held pg _ x
      by_cases same : x = pg
      · subst same
        rw [update_self, update_self, inv.counts x added, Nat.mod_eq_of_lt few]
      · rw [update_of_ne same, update_of_ne same]
        exact inv.counts x member
    · intro x some
      exact inv.holders x (fun zero => some ((held x).mpr zero))
    · intro x member
      have other : x ≠ pg := by
        rintro rfl
        exact outside (mem_append_right _ member)
      show x ∈ s.added ∧ update s.held pg _ x = 1
      rw [update_of_ne other]
      exact inv.xmem x member
  · cases ran

theorem Inv.release (inv : Inv s) (holds : s.held pg ≠ 0) (outside : pg ∉ s.tablePages)
    (ran : pAlloc_Release pg s.frames = some frames) :
    Inv { s with frames := frames, held := update s.held pg (s.held pg - 1) } := by
  have added := inv.holders pg holds
  have count := inv.counts pg added
  have used : pg ∉ s.frames.freeList := fun free => holds ((inv.free pg).mp free).2
  have xmem : ∀ x ∈ s.xmemPages, x ∈ s.added ∧ update s.held pg (s.held pg - 1) x = 1 := by
    intro x member
    have other : x ≠ pg := by
      rintro rfl
      exact outside (mem_append_right _ member)
    rw [update_of_ne other]
    exact inv.xmem x member
  have holders : ∀ x, update s.held pg (s.held pg - 1) x ≠ 0 → x ∈ s.added := by
    intro x some
    by_cases same : x = pg
    · rw [same]
      exact added
    · rw [update_of_ne same] at some
      exact inv.holders x some
  have counts : ∀ x ∈ s.added, update s.frames.refCount pg (s.frames.refCount pg - 1) x =
      update s.held pg (s.held pg - 1) x := by
    intro x member
    by_cases same : x = pg
    · subst same
      rw [update_self, update_self, count]
    · rw [update_of_ne same, update_of_ne same]
      exact inv.counts x member
  unfold pAlloc_Release at ran
  split at ran
  · dsimp only at ran
    split at ran
    · -- the last reference: the page goes back to the free list
      rename_i last
      have zero : s.held pg - 1 = 0 := by omega
      unfold pAllocFreePage at ran
      split at ran
      · cases ran
        refine ⟨nodup_cons.mpr ⟨used, inv.nodup⟩, inv.distinct, ?_, counts, holders, ?_,
          inv.totalPages, inv.regions, inv.boot, xmem, inv.covered, inv.early⟩
        · intro x
          show x ∈ pg :: s.frames.freeList ↔ x ∈ s.added ∧ update s.held pg _ x = 0
          rw [mem_cons, inv.free]
          by_cases same : x = pg
          · subst same
            simp [added, zero]
          · simp [same]
        · show s.frames.freePages + 1 = (pg :: s.frames.freeList).length
          rw [inv.freePages, length_cons]
      · cases ran
    · rename_i more
      cases ran
      refine ⟨inv.nodup, inv.distinct, ?_, counts, holders, inv.freePages, inv.totalPages,
        inv.regions, inv.boot, xmem, inv.covered, inv.early⟩
      intro x
      show x ∈ s.frames.freeList ↔ x ∈ s.added ∧ update s.held pg _ x = 0
      rw [inv.free]
      by_cases same : x = pg
      · subst same
        rw [update_self]
        constructor
        · exact fun both => absurd both.2 holds
        · rintro ⟨_, zero⟩
          omega
      · rw [update_of_ne same]
  · cases ran

theorem Inv.step (inv : Inv s) {op : Op} (disjoint : Disjoint s op) (disciplined : Disciplined s op)
    (ran : apply s op = some t) : Inv t := by
  cases op with
  | addRegion tables start len =>
    cases booted : s.booted with
    | false => exact inv.addFirst booted disjoint.1 (disciplined booted) ran
    | true => exact inv.addLater booted disjoint.2 ran
  | lateInit tables => exact inv.lateInit ran
  | alloc =>
    obtain ⟨⟨pg, u⟩, allocated, rfl⟩ := map_eq_some_iff.mp ran
    exact inv.take (alloc_takes allocated)
  | retain pg =>
    obtain ⟨frames, retained, rfl⟩ := map_eq_some_iff.mp ran
    exact inv.retain disciplined.1 disciplined.2.1 disciplined.2.2 retained
  | release pg =>
    obtain ⟨frames, released, rfl⟩ := map_eq_some_iff.mp ran
    exact inv.release disciplined.1 disciplined.2 released
  | write pg i value =>
    simp only [apply] at ran
    split at ran
    · cases ran
      exact ⟨inv.nodup, inv.distinct, inv.free, inv.counts, inv.holders, inv.freePages,
        inv.totalPages, inv.regions, inv.boot, inv.xmem, inv.covered, inv.early⟩
    · cases ran

theorem Started.inv (started : Started s) : Inv s := by
  obtain ⟨list, free, total⟩ := started.frames
  obtain ⟨booted, late, _, boot, xmem⟩ := started.table
  obtain ⟨regions, added, held⟩ := started.pages
  constructor
  · rw [list]
    exact nodup_nil
  · rw [added]
    exact nodup_nil
  · intro pg
    simp [list, added]
  · intro pg member
    rw [added] at member
    cases member
  · intro pg some
    exact absurd (held pg) some
  · rw [free, list]
    rfl
  · rw [total, added]
    rfl
  · intro pg member
    rw [added, boot] at member
    cases member
  · intro pg _ member
    rw [added] at member
    cases member
  · intro pg member
    rw [xmem] at member
    cases member
  · intro pg member
    rw [added] at member
    cases member
  · exact fun _ => ⟨added, boot, late⟩

theorem Inv.agree (inv : Inv s) : Agree s := by
  have free : ∀ pg ∈ s.added, pg ∈ s.frames.freeList ↔ s.frames.refCount pg = 0 := by
    intro pg member
    rw [inv.free, inv.counts pg member]
    exact ⟨fun both => both.2, fun zero => ⟨member, zero⟩⟩
  refine ⟨?_, inv.freePages, ?_, inv.counts, ?_, ?_⟩
  · intro pg member
    constructor
    · intro zero
      exact count_eq_one_of_mem inv.nodup ((free pg member).mpr zero)
    · intro some
      exact count_eq_zero.mpr (fun listed => some ((free pg member).mp listed))
  · have same : s.frames.freeList.Perm (s.added.filter (fun pg => s.frames.refCount pg = 0)) := by
      refine (perm_ext_iff_of_nodup inv.nodup (inv.distinct.filter _)).mpr fun pg => ?_
      rw [mem_filter, decide_eq_true_eq]
      constructor
      · intro listed
        have member := ((inv.free pg).mp listed).1
        exact ⟨member, (free pg member).mp listed⟩
      · rintro ⟨member, zero⟩
        exact (free pg member).mpr zero
    have split := length_eq_length_filter_add (l := s.added) (fun pg => decide (s.frames.refCount pg = 0))
    have negated : s.added.filter (fun pg => !decide (s.frames.refCount pg = 0)) =
        s.added.filter (fun pg => decide (s.frames.refCount pg ≠ 0)) := by
      refine filter_congr fun pg _ => ?_
      simp
    rw [negated] at split
    rw [inv.totalPages, inv.freePages, same.length_eq]
    omega
  · intro pg member listed
    obtain ⟨added, unheld⟩ := (inv.free pg).mp listed
    rcases mem_append.mp member with boot | xmem
    · exact inv.boot pg boot added
    · have := (inv.xmem pg xmem).2
      omega
  · exact fun pg t ran => inv.fresh (alloc_takes ran)

end

/-- In every run that adds disjoint regions, the first with room for its table, and retains and
releases pages only for their holders, the list, the counts and the counters agree. -/
theorem palloc_agrees {s t : System} (started : Started s) {ops : List Op}
    (ran : Run (fun s op t => Disjoint s op ∧ Disciplined s op ∧ apply s op = some t) s ops t) :
    Agree t := by
  have inv : Inv t :=
    Run.invariant Inv (fun _ _ _ inv moved => inv.step moved.1 moved.2.1 moved.2.2) ran started.inv
  exact inv.agree

def emptyAllocator : System where
  frames := { freeList := [], freePages := 0, totalPages := 0, refCount := fun _ => 0, memory := fun _ _ => 0 }
  booted := false
  late := false
  pageInfoLength := 0
  xmemLength := 0
  bootPages := []
  xmemPages := []
  regions := []
  added := []
  held := fun _ => 0

theorem emptyAllocator_started : Started emptyAllocator :=
  ⟨⟨rfl, rfl, rfl⟩, ⟨rfl, rfl, rfl, rfl, rfl⟩, rfl, rfl, fun _ => rfl⟩

theorem palloc_agrees_move :
    ∃ t, Run (fun s op t => Disjoint s op ∧ Disciplined s op ∧ apply s op = some t) emptyAllocator
        [.addRegion (fun _ => 0) 0 0x8000, .lateInit (fun _ => 1), .alloc, .release 5] t ∧
      t.xmemPages = [7] ∧ t.frames.freeList = [5, 4, 3, 2, 1] ∧ Agree t := by
  obtain ⟨a, b, c, t, first, second, third, fourth, holds, pages, list⟩ : ∃ a b c t,
      apply emptyAllocator (.addRegion (fun _ => 0) 0 0x8000) = some a ∧
      apply a (.lateInit fun _ => 1) = some b ∧ apply b .alloc = some c ∧
      apply c (.release 5) = some t ∧ (c.held 5 ≠ 0 ∧ 5 ∉ c.tablePages) ∧ t.xmemPages = [7] ∧
      t.frames.freeList = [5, 4, 3, 2, 1] :=
    ⟨_, _, _, _, rfl, rfl, rfl, rfl, by decide, rfl, rfl⟩
  have room : Disjoint emptyAllocator (.addRegion (fun _ => 0) 0 0x8000) :=
    ⟨by decide, fun _ _ _ => not_mem_nil⟩
  have ran : Run (fun s op t => Disjoint s op ∧ Disciplined s op ∧ apply s op = some t) emptyAllocator
      [.addRegion (fun _ => 0) 0 0x8000, .lateInit (fun _ => 1), .alloc, .release 5] t :=
    Run.cons ⟨room, fun _ => by decide, first⟩ (Run.cons ⟨trivial, trivial, second⟩
      (Run.cons ⟨trivial, trivial, third⟩ (Run.single ⟨trivial, holds, fourth⟩)))
  exact ⟨t, ran, pages, list, palloc_agrees emptyAllocator_started ran⟩

/-- Anybody may release the page that holds the table: it has one reference. -/
theorem table_page_freed :
    ∃ t, Run (fun s op t => Disjoint s op ∧ apply s op = some t) emptyAllocator
        [.addRegion (fun _ => 0) 0 0x3000, .release 0] t ∧ ¬ Agree t := by
  obtain ⟨a, t, first, second, table, listed⟩ : ∃ a t,
      apply emptyAllocator (.addRegion (fun _ => 0) 0 0x3000) = some a ∧
      apply a (.release 0) = some t ∧ 0 ∈ t.tablePages ∧ 0 ∈ t.frames.freeList :=
    ⟨_, _, rfl, rfl, by decide, by decide⟩
  have room : Disjoint emptyAllocator (.addRegion (fun _ => 0) 0 0x3000) :=
    ⟨by decide, fun _ _ _ => not_mem_nil⟩
  exact ⟨t, Run.cons ⟨room, first⟩ (Run.single ⟨trivial, second⟩), fun agree => agree.table 0 table listed⟩

end BoringOs.PAlloc
