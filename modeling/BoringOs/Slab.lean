import BoringOs.PAlloc
import BoringOs.Lib.Runs
import Mathlib.Data.List.Perm.Basic

/-! The slab allocator of `sys/kern/slab.c` over a region of `sys/amd64/xmem.c`. The links of
`freeList` inside the free objects are left out. `none` is the trap of a division by zero. -/

namespace BoringOs.Slabs

open Runs PAlloc List Option

def MAX_XMEM_REGIONS : Nat := 1024
/-- The bytes of a region of `XMem_Init`. -/
def REGION_SIZE : Nat := 0x0000002000000000 / MAX_XMEM_REGIONS
def ROUNDUP (x n : Nat) : Nat := (x + n + word64 - 1) % word64 &&& (word64 - n)

/-- The slab with its region. `live` are the objects that `Slab_Alloc` has handed out and that have
not been freed. -/
structure Slab where
  objsz : Nat
  align : Nat
  base : Nat
  length : Nat
  objs : Nat
  freeObjs : Nat
  freeList : List Nat
  allocs : Nat
  frees : Nat
  live : List Nat

/-- The loop of `XMem_Allocate` from `off` on: `pages` is how many pages `PAlloc_AllocPage` has, and
the region keeps those it got. -/
def xMemLoop (length : Nat) : Nat → Slab → Slab
  | 0, s => s
  | pages + 1, s =>
    if s.length < length then xMemLoop length pages { s with length := s.length + PGSIZE } else s

def xMem_Allocate (length pages : Nat) (s : Slab) : Bool × Slab :=
  if s.length > length then (true, s)
  else if length > REGION_SIZE then (false, s)
  else
    let s := xMemLoop length pages s
    (decide (length ≤ s.length), s)

def Slab.realObjSz (s : Slab) : Nat := ROUNDUP s.objsz s.align

def Slab.inc (s : Slab) : Nat :=
  max (ROUNDUP (mul64 s.realObjSz 64) PGSIZE) (4 * PGSIZE)

/-- The first `count` passes of the loop of `SlabExtend`. -/
def insertLoop (start size : Nat) (list : List Nat) : Nat → List Nat
  | 0 => list
  | count + 1 => add64 start (mul64 count size) :: insertLoop start size list count

/-- The new objects of `SlabExtend` with their counts. -/
def addObjs (start size objs : Nat) (s : Slab) : Slab :=
  { s with
    freeList := insertLoop start size s.freeList objs
    objs := add64 s.objs objs
    freeObjs := add64 s.freeObjs objs }

def slabExtend (pages : Nat) (s : Slab) : Option Slab :=
  let grown := xMem_Allocate (add64 s.length s.inc) pages s
  if grown.1 = false then some grown.2
  else if s.realObjSz = 0 then none
  else some (addObjs (add64 s.base s.length) s.realObjSz (s.inc / s.realObjSz) grown.2)

/-- The first free object, or 0 for `NULL`. -/
def takeFirst (s : Slab) : Nat × Slab :=
  match s.freeList with
  | [] => (0, s)
  | elem :: rest =>
    (elem, { s with
      freeList := rest, allocs := add64 s.allocs 1, freeObjs := (s.freeObjs + word64 - 1) % word64
      live := elem :: s.live })

def slab_Alloc (pages : Nat) (s : Slab) : Option (Nat × Slab) :=
  (if s.freeObjs = 0 then slabExtend pages s else some s).map takeFirst

def slab_Free (region : Nat) (s : Slab) : Slab :=
  { s with
    freeList := region :: s.freeList, frees := add64 s.frees 1, freeObjs := add64 s.freeObjs 1
    live := s.live.erase region }

inductive Label where
  /-- `Slab_Alloc` when there are `pages` free pages. -/
  | alloc (pages : Nat)
  | free (region : Nat)
  deriving DecidableEq

def apply (s : Slab) : Label → Option Slab
  | .alloc pages => (slab_Alloc pages s).map Prod.snd
  | .free region => if region ∈ s.live then some (slab_Free region s) else none

def Step (s : Slab) (label : Label) (s' : Slab) : Prop := apply s label = some s'

variable {s t : Slab} {x k start count length size : Nat} {list : List Nat}

theorem roundup_eq (low : k ≤ 12) :
    ROUNDUP x (2 ^ k) = (x + 2 ^ k + word64 - 1) % word64 / 2 ^ k * 2 ^ k := by
  have mask : word64 - 2 ^ k = (2 ^ (64 - k) - 1) <<< k := by
    rw [Nat.shiftLeft_eq, Nat.sub_mul, Nat.one_mul, ← Nat.pow_add, Nat.sub_add_cancel (by omega)]
    rfl
  rw [ROUNDUP, mask, and_high_mask]
  rw [Nat.sub_add_cancel (by omega)]
  exact Nat.mod_lt _ (by decide)

theorem roundup_dvd (low : k ≤ 12) : 2 ^ k ∣ ROUNDUP x (2 ^ k) := by
  rw [roundup_eq low]
  exact dvd_mul_left _ _

theorem le_roundup (low : k ≤ 12) (small : x < word64)
    (nonzero : ROUNDUP x (2 ^ k) ≠ 0) : x ≤ ROUNDUP x (2 ^ k) := by
  rw [roundup_eq low] at *
  have pos : 0 < 2 ^ k := Nat.two_pow_pos k
  have most : 2 ^ k ≤ 4096 := Nat.pow_le_pow_right (by decide) low
  have fits : x + 2 ^ k - 1 < word64 := by
    by_contra wraps
    have rest : (x + 2 ^ k + word64 - 1) % word64 < 2 ^ k := by
      unfold word64 at *
      omega
    rw [Nat.div_eq_of_lt rest, Nat.zero_mul] at nonzero
    exact nonzero rfl
  have sum : (x + 2 ^ k + word64 - 1) % word64 = x + 2 ^ k - 1 := by
    unfold word64 at *
    omega
  rw [sum]
  have := Nat.div_add_mod (x + 2 ^ k - 1) (2 ^ k)
  have := Nat.mod_lt (x + 2 ^ k - 1) pos
  rw [mul_comm]
  omega

theorem inc_spec (s : Slab) : PGSIZE ∣ s.inc ∧ 4 * PGSIZE ≤ s.inc ∧ s.inc < word64 := by
  have page : PGSIZE = 2 ^ 12 := rfl
  refine ⟨?_, le_max_right _ _, ?_⟩
  · unfold Slab.inc
    rcases le_total (ROUNDUP (mul64 s.realObjSz 64) PGSIZE) (4 * PGSIZE) with le | le
    · rw [max_eq_right le]
      exact dvd_mul_left _ _
    · rw [Nat.max_eq_left le, page]
      exact roundup_dvd le_rfl
  · refine Nat.max_lt.mpr ⟨?_, by decide⟩
    rw [page, roundup_eq le_rfl]
    have := Nat.mod_lt (mul64 s.realObjSz 64 + 2 ^ 12 + word64 - 1) (show 0 < word64 by decide)
    omega

/-- What `XMem_Allocate` does with the region: it changes the length only. -/
def Grown (s t : Slab) : Prop :=
  ∃ length, t = { s with length := length } ∧ s.length ≤ length ∧ PGSIZE ∣ length

theorem xMemLoop_grows (pages : Nat) (whole : PGSIZE ∣ s.length)
    (aligned : PGSIZE ∣ length) (short : s.length ≤ length) :
    Grown s (xMemLoop length pages s) ∧ (xMemLoop length pages s).length ≤ length := by
  induction pages generalizing s with
  | zero => exact ⟨⟨s.length, rfl, le_rfl, whole⟩, short⟩
  | succ pages ih =>
    rw [xMemLoop]
    by_cases more : s.length < length
    · rw [if_pos more]
      have next : s.length + PGSIZE ≤ length := by
        obtain ⟨a, here⟩ := whole
        obtain ⟨b, there⟩ := aligned
        unfold PGSIZE at *
        omega
      obtain ⟨⟨length', rest, longer, pages'⟩, bound⟩ :=
        ih (s := { s with length := s.length + PGSIZE }) (Nat.dvd_add whole (Nat.dvd_refl _)) next
      exact ⟨⟨length', rest, Nat.le_trans (Nat.le_add_right _ _) longer, pages'⟩, bound⟩
    · rw [if_neg more]
      exact ⟨⟨s.length, rfl, le_rfl, whole⟩, short⟩

/-- Two objects of the given size have no byte in common. -/
def Apart (size p q : Nat) : Prop := p + size ≤ q ∨ q + size ≤ p

structure Packed (s : Slab) (objects : List Nat) : Prop where
  apart : objects.Pairwise (Apart s.realObjSz)
  low : ∀ p ∈ objects, s.base ≤ p
  high : ∀ p ∈ objects, p + s.realObjSz ≤ s.base + s.length
  aligned : ∀ p ∈ objects, s.align ∣ p

theorem Packed.perm {objects objects' : List Nat} (packed : Packed s objects)
    (same : objects'.Perm objects) : Packed s objects' where
  apart := by
    refine (same.symm.pairwise_iff ?_).mp packed.apart
    intro p q apart
    exact apart.symm
  low := fun p member => packed.low p (same.mem_iff.mp member)
  high := fun p member => packed.high p (same.mem_iff.mp member)
  aligned := fun p member => packed.aligned p (same.mem_iff.mp member)

structure Inv (s : Slab) : Prop where
  power : ∃ k ≤ 12, s.align = 2 ^ k
  size : s.objsz < word64
  region : PGSIZE ∣ s.base ∧ s.base + REGION_SIZE ≤ word64
  pages : PGSIZE ∣ s.length
  bound : s.length ≤ REGION_SIZE
  /-- A slab whose increment does not fit the region never grows. -/
  modest : s.length = 0 ∨ s.inc ≤ REGION_SIZE
  freeObjs : s.freeObjs = s.freeList.length
  objs : s.objs = s.freeList.length + s.live.length
  few : s.objs * s.realObjSz ≤ s.length
  none : s.realObjSz = 0 → s.objs = 0
  counts : s.frees < word64 ∧ s.allocs = (s.frees + s.live.length) % word64
  packed : Packed s (s.freeList ++ s.live)

theorem Inv.objs_le (inv : Inv s) : s.objs ≤ REGION_SIZE := by
  have few := inv.few
  have bound := inv.bound
  rcases Nat.eq_zero_or_pos s.realObjSz with zero | pos
  · rw [inv.none zero]
    exact Nat.zero_le _
  · have := Nat.le_mul_of_pos_right s.objs pos
    omega

theorem Inv.relist (inv : Inv s) {objs freeObjs allocs frees : Nat}
    {freeList live : List Nat} (freeLength : freeObjs = freeList.length)
    (length : objs = freeList.length + live.length) (few : objs * s.realObjSz ≤ s.length)
    (none : s.realObjSz = 0 → objs = 0)
    (counts : frees < word64 ∧ allocs = (frees + live.length) % word64)
    (packed : Packed s (freeList ++ live)) :
    Inv { s with
      objs := objs, freeObjs := freeObjs, freeList := freeList, allocs := allocs, frees := frees
      live := live } where
  power := inv.power
  size := inv.size
  region := inv.region
  pages := inv.pages
  bound := inv.bound
  modest := inv.modest
  freeObjs := freeLength
  objs := length
  few := few
  none := none
  counts := counts
  packed := ⟨packed.apart, packed.low, packed.high, packed.aligned⟩

theorem Inv.grown (inv : Inv s) (grown : Grown s t) (bound : t.length ≤ REGION_SIZE)
    (modest : t.length = 0 ∨ s.inc ≤ REGION_SIZE) : Inv t := by
  obtain ⟨length, rfl, longer, pages⟩ := grown
  exact {
    power := inv.power, size := inv.size, region := inv.region, pages := pages, bound := bound
    modest := modest, freeObjs := inv.freeObjs, objs := inv.objs
    few := le_trans inv.few longer
    none := inv.none, counts := inv.counts
    packed := {
      apart := inv.packed.apart, low := inv.packed.low, aligned := inv.packed.aligned
      high := fun p member => Nat.le_trans (inv.packed.high p member) (Nat.add_le_add_left longer _) } }

theorem Inv.xMem_Allocate (inv : Inv s) (pages : Nat) :
    Grown s (xMem_Allocate (add64 s.length s.inc) pages s).2 ∧
      Inv (xMem_Allocate (add64 s.length s.inc) pages s).2 ∧
      ((xMem_Allocate (add64 s.length s.inc) pages s).1 = true →
        (xMem_Allocate (add64 s.length s.inc) pages s).2.length = s.length + s.inc) := by
  obtain ⟨whole, large, short⟩ := inc_spec s
  have bound := inv.bound
  have sum : add64 s.length s.inc = s.length + s.inc := by
    refine add64_of_lt ?_
    rcases inv.modest with zero | modest
    · omega
    · have : REGION_SIZE + REGION_SIZE < word64 := by decide
      omega
  rw [sum, Slabs.xMem_Allocate, if_neg (by omega)]
  by_cases long : s.length + s.inc > REGION_SIZE
  · rw [if_pos long]
    exact ⟨⟨s.length, rfl, le_rfl, inv.pages⟩, inv, by simp⟩
  · rw [if_neg long]
    obtain ⟨grown, most⟩ := xMemLoop_grows pages inv.pages (Nat.dvd_add inv.pages whole)
      (Nat.le_add_right s.length s.inc)
    have fits : (xMemLoop (s.length + s.inc) pages s).length ≤ REGION_SIZE := by omega
    refine ⟨grown, inv.grown grown fits (.inr (by omega)), ?_⟩
    intro reached
    exact le_antisymm most (of_decide_eq_true reached)

theorem mem_insertLoop {start size count p : Nat}
    (fits : start + count * size ≤ word64) (pos : 0 < size)
    (member : p ∈ insertLoop start size list count) :
    p ∈ list ∨ ∃ k < count, p = start + k * size := by
  induction count with
  | zero => exact .inl member
  | succ count ih =>
    have step : (count + 1) * size = count * size + size := Nat.succ_mul _ _
    rcases mem_cons.mp member with rfl | earlier
    · refine .inr ⟨count, Nat.lt_succ_self _, ?_⟩
      rw [mul64_of_lt (by omega), add64_of_lt (by omega)]
    · rcases ih (by omega) earlier with old | ⟨k, below, place⟩
      · exact .inl old
      · exact .inr ⟨k, Nat.lt_succ_of_lt below, place⟩

theorem length_insertLoop (start size : Nat) (list : List Nat) (count : Nat) :
    (insertLoop start size list count).length = list.length + count := by
  induction count with
  | zero => rfl
  | succ count ih =>
    rw [insertLoop, length_cons, ih]
    rfl

theorem insertLoop_apart {list rest : List Nat}
    (fits : start + count * size ≤ word64) (pos : 0 < size)
    (before : ∀ p ∈ list ++ rest, p + size ≤ start) (apart : (list ++ rest).Pairwise (Apart size)) :
    (insertLoop start size list count ++ rest).Pairwise (Apart size) := by
  induction count with
  | zero => exact apart
  | succ count ih =>
    have step : (count + 1) * size = count * size + size := Nat.succ_mul _ _
    refine pairwise_cons.mpr ⟨?_, ih (by omega)⟩
    intro p member
    rw [mul64_of_lt (by omega), add64_of_lt (by omega)]
    refine .inr ?_
    have old : p ∈ list ++ rest → p + size ≤ start + count * size := by
      intro has
      have := before p has
      omega
    rcases mem_append.mp member with front | back
    · rcases mem_insertLoop (by omega) pos front with has | ⟨k, below, rfl⟩
      · exact old (mem_append_left _ has)
      · have := Nat.mul_le_mul_right size (show k + 1 ≤ count from below)
        rw [Nat.succ_mul] at this
        omega
    · exact old (mem_append_right _ back)

theorem Inv.insert (inv : Inv s) (pos : 0 < s.realObjSz)
    (before : ∀ p ∈ s.freeList ++ s.live, p + s.realObjSz ≤ start) (low : s.base ≤ start)
    (fits : start + count * s.realObjSz ≤ s.base + s.length) (aligned : s.align ∣ start)
    (few : (s.objs + count) * s.realObjSz ≤ s.length) :
    Inv { s with
      freeList := insertLoop start s.realObjSz s.freeList count
      objs := s.objs + count, freeObjs := s.freeObjs + count } := by
  have limit := inv.region.2
  have bound := inv.bound
  have word : start + count * s.realObjSz ≤ word64 := by omega
  have places : ∀ p ∈ insertLoop start s.realObjSz s.freeList count ++ s.live,
      p ∈ s.freeList ++ s.live ∨ ∃ k < count, p = start + k * s.realObjSz := by
    intro p member
    rcases mem_append.mp member with front | back
    · rcases mem_insertLoop word pos front with old | new
      · exact .inl (mem_append_left _ old)
      · exact .inr new
    · exact .inl (mem_append_right _ back)
  have packed : Packed s (insertLoop start s.realObjSz s.freeList count ++ s.live) := by
    constructor
    · exact insertLoop_apart word pos before inv.packed.apart
    · intro p member
      rcases places p member with old | ⟨k, _, rfl⟩
      · exact inv.packed.low p old
      · omega
    · intro p member
      rcases places p member with old | ⟨k, below, rfl⟩
      · exact inv.packed.high p old
      · have := Nat.mul_le_mul_right s.realObjSz (show k + 1 ≤ count from below)
        rw [Nat.succ_mul] at this
        omega
    · intro p member
      rcases places p member with old | ⟨j, _, rfl⟩
      · exact inv.packed.aligned p old
      · obtain ⟨k, short, power⟩ := inv.power
        have stride : s.align ∣ s.realObjSz := by
          rw [Slab.realObjSz, power]
          exact roundup_dvd short
        exact Nat.dvd_add aligned (stride.mul_left j)
  refine inv.relist ?_ ?_ few (fun zero => absurd zero (Nat.ne_of_gt pos)) inv.counts packed
  · rw [length_insertLoop, inv.freeObjs]
  · rw [length_insertLoop, inv.objs]
    omega

theorem Inv.addObjs (inv : Inv s) (full : length = s.length + s.inc)
    (kept : Inv { s with length := length }) (nonzero : s.realObjSz ≠ 0) :
    Inv (addObjs (add64 s.base s.length) s.realObjSz (s.inc / s.realObjSz)
      { s with length := length }) := by
  have limit := inv.region.2
  have bound : length ≤ REGION_SIZE := kept.bound
  have large : 0 < s.inc := Nat.lt_of_lt_of_le (by decide) (inc_spec s).2.1
  have part : s.inc / s.realObjSz * s.realObjSz ≤ s.inc := Nat.div_mul_le_self _ _
  have count : s.inc / s.realObjSz ≤ s.inc := Nat.div_le_self _ _
  have room : REGION_SIZE + REGION_SIZE < word64 := by decide
  have objsBound := inv.objs_le
  have freeObjsEq := inv.freeObjs
  have objsEq := inv.objs
  have start : add64 s.base s.length = s.base + s.length := add64_of_lt (by omega)
  have objs : add64 s.objs (s.inc / s.realObjSz) = s.objs + s.inc / s.realObjSz :=
    add64_of_lt (by omega)
  have freeObjs : add64 s.freeObjs (s.inc / s.realObjSz) = s.freeObjs + s.inc / s.realObjSz :=
    add64_of_lt (by omega)
  rw [start, Slabs.addObjs]
  simp only [objs, freeObjs]
  refine kept.insert (Nat.pos_of_ne_zero nonzero) inv.packed.high ?_ ?_ ?_ ?_
  · exact Nat.le_add_right _ _
  · show s.base + s.length + s.inc / s.realObjSz * s.realObjSz ≤ s.base + length
    omega
  · obtain ⟨k, short, power⟩ := inv.power
    have page : s.align ∣ PGSIZE := by
      rw [power, show PGSIZE = 2 ^ 12 from rfl]
      exact Nat.pow_dvd_pow 2 short
    exact Nat.dvd_add (page.trans inv.region.1) (page.trans inv.pages)
  · show (s.objs + s.inc / s.realObjSz) * s.realObjSz ≤ length
    have few := inv.few
    rw [add_mul]
    omega

theorem Inv.slabExtend {pages : Nat} (inv : Inv s) (ran : slabExtend pages s = some t) : Inv t := by
  obtain ⟨⟨length, grown, _, _⟩, kept, reached⟩ := inv.xMem_Allocate pages
  rw [Slabs.slabExtend] at ran
  by_cases failed : (Slabs.xMem_Allocate (add64 s.length s.inc) pages s).1 = false
  · rw [if_pos failed, some.injEq] at ran
    exact ran ▸ kept
  · rw [if_neg failed, ite_none_left_eq_some] at ran
    obtain ⟨nonzero, result⟩ := ran
    have full := reached (by simpa using failed)
    rw [grown] at kept full result
    cases result
    exact inv.addObjs full kept nonzero

theorem sub_one {n : Nat} (small : n + 1 < word64) : (n + 1 + word64 - 1) % word64 = n := by
  unfold word64 at *
  omega

theorem Inv.take (inv : Inv s) {elem : Nat} {rest : List Nat} (list : s.freeList = elem :: rest) :
    Inv { s with
      freeList := rest, allocs := add64 s.allocs 1, freeObjs := (s.freeObjs + word64 - 1) % word64
      live := elem :: s.live } := by
  have bound := inv.objs_le
  have room : REGION_SIZE < word64 := by decide
  have freeObjs := inv.freeObjs
  have objs := inv.objs
  rw [list, length_cons] at freeObjs objs
  refine inv.relist ?_ ?_ inv.few inv.none ⟨inv.counts.1, ?_⟩ ?_
  · rw [freeObjs, sub_one (by omega)]
  · rw [length_cons]
    omega
  · rw [add64, inv.counts.2, Nat.mod_add_mod, length_cons, add_assoc]
  · have moved : (rest ++ elem :: s.live).Perm (s.freeList ++ s.live) := by
      rw [list]
      exact perm_middle
    exact inv.packed.perm moved

theorem Inv.put (inv : Inv s) {region : Nat} (held : region ∈ s.live) : Inv (slab_Free region s) := by
  have bound := inv.objs_le
  have room : REGION_SIZE < word64 := by decide
  have freeObjs := inv.freeObjs
  have objs := inv.objs
  have fewer : (s.live.erase region).length + 1 = s.live.length := by
    rw [length_erase_of_mem held]
    exact Nat.sub_add_cancel (length_pos_of_mem held)
  refine inv.relist ?_ ?_ inv.few inv.none ⟨Nat.mod_lt _ (by decide), ?_⟩ ?_
  · rw [length_cons, add64_of_lt (by omega), freeObjs]
  · rw [length_cons]
    omega
  · rw [inv.counts.2, add64, Nat.mod_add_mod, add_assoc, add_comm 1, fewer]
  · have moved : (region :: s.freeList ++ s.live.erase region).Perm (s.freeList ++ s.live) := by
      have back := (perm_cons_erase held).symm
      exact (perm_middle.symm).trans (List.Perm.append_left s.freeList back)
    exact inv.packed.perm moved

theorem Inv.step (inv : Inv s) {label : Label} (step : Step s label t) : Inv t := by
  cases label with
  | alloc pages =>
    obtain ⟨_, ran, rfl⟩ := map_eq_some_iff.mp step
    obtain ⟨u, extended, rfl⟩ := map_eq_some_iff.mp ran
    have kept : Inv u := by
      by_cases empty : s.freeObjs = 0
      · rw [if_pos empty] at extended
        exact inv.slabExtend extended
      · rw [if_neg empty, some.injEq] at extended
        exact extended ▸ inv
    unfold takeFirst
    cases list : u.freeList with
    | nil => exact kept
    | cons first rest => exact kept.take list
  | free region =>
    obtain ⟨held, rfl⟩ := ite_some_none_eq_some.mp step
    exact inv.put held

/-- A slab as it should be: the counters count the objects, and the objects lie apart, aligned and
inside the region. -/
structure Sound (s : Slab) : Prop where
  freeObjs : s.freeObjs = s.freeList.length
  live : s.objs = s.freeObjs + s.live.length
  /-- `allocs - frees` in 64 bits. -/
  counts : (s.allocs + word64 - s.frees) % word64 = s.live.length
  apart : (s.freeList ++ s.live).Pairwise (Apart s.objsz)
  aligned : ∀ p ∈ s.freeList ++ s.live, p % s.align = 0
  inside : ∀ p ∈ s.freeList ++ s.live, s.base ≤ p ∧ p + s.objsz ≤ s.base + s.length

theorem Inv.sound (inv : Inv s) : Sound s := by
  have objs := inv.objs
  have fits : ∀ p ∈ s.freeList ++ s.live, s.objsz ≤ s.realObjSz := by
    intro p member
    obtain ⟨k, low, power⟩ := inv.power
    have some' : 0 < (s.freeList ++ s.live).length := length_pos_of_mem member
    rw [length_append] at some'
    have nonzero : s.realObjSz ≠ 0 := by
      intro zero
      have := inv.none zero
      omega
    unfold Slab.realObjSz at *
    rw [power] at nonzero ⊢
    exact le_roundup low inv.size nonzero
  refine ⟨inv.freeObjs, by rw [inv.freeObjs]; exact objs, ?_, ?_, ?_, ?_⟩
  · have bound := inv.objs_le
    have room : REGION_SIZE < word64 := by decide
    obtain ⟨small, allocs⟩ := inv.counts
    rw [allocs]
    unfold word64 at *
    omega
  · refine inv.packed.apart.imp_of_mem ?_
    intro p q first _ apart
    have := fits p first
    unfold Apart at *
    omega
  · intro p member
    exact Nat.mod_eq_zero_of_dvd (inv.packed.aligned p member)
  · intro p member
    have := fits p member
    have := inv.packed.high p member
    exact ⟨inv.packed.low p member, by omega⟩

end BoringOs.Slabs
