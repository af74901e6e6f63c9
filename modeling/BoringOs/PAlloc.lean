import BoringOs.Errno
import Mathlib.Data.List.Nodup

/-! The page allocator of `sys/kern/palloc.c`. Pages are named by their physical page number. Of the
contents of a page its 512 words matter. The links of `freeList` inside the free pages are left out:
the list is a list of pages. `none` is a failed `ASSERT`. -/

namespace BoringOs.PAlloc

def PGSIZE : Nat := 4096

def FREEPAGE_MAGIC_FREE : Nat := 0x4652454550414745

structure Frames where
  freeList : List Nat
  freePages : Nat
  totalPages : Nat
  /-- The `PageInfo` table. -/
  refCount : Nat → Nat
  memory : Nat → Nat → Nat

/-- The word that a `FreePage` has its magic in. -/
def Frames.magic (s : Frames) (pg : Nat) : Nat := s.memory pg 0

def Frames.setMagic (s : Frames) (pg magic : Nat) : Frames :=
  { s with memory := Function.update s.memory pg (Function.update (s.memory pg) 0 magic) }

def Frames.setRefCount (s : Frames) (pg count : Nat) : Frames :=
  { s with refCount := Function.update s.refCount pg count }

def pAlloc_AllocPage (s : Frames) : Option (Nat × Frames) :=
  match s.freeList with
  | [] => none
  | pg :: rest =>
    if s.magic pg = FREEPAGE_MAGIC_FREE ∧ s.refCount pg = 0 then
      some (pg, {
        freeList := rest
        freePages := s.freePages - 1
        totalPages := s.totalPages
        refCount := Function.update s.refCount pg 1
        memory := Function.update s.memory pg (fun _ => 0) })
    else none

/-- With the two assertions of a build without `NDEBUG`. -/
def pAllocFreePage (pg : Nat) (s : Frames) : Option Frames :=
  if s.magic pg ≠ FREEPAGE_MAGIC_FREE ∧ s.refCount pg = 0 then
    some ({ s with freeList := pg :: s.freeList, freePages := s.freePages + 1 }.setMagic pg
      FREEPAGE_MAGIC_FREE)
  else none

def pAlloc_Retain (pg : Nat) (s : Frames) : Option Frames :=
  if s.refCount pg ≠ 0 then some (s.setRefCount pg ((s.refCount pg + 1) % word64)) else none

def pAlloc_Release (pg : Nat) (s : Frames) : Option Frames :=
  if s.refCount pg ≠ 0 then
    let t := s.setRefCount pg (s.refCount pg - 1)
    if s.refCount pg - 1 = 0 then pAllocFreePage pg t else some t
  else none

structure Allocated (s : Frames) (pg : Nat) (t : Frames) : Prop where
  head : s.freeList = pg :: t.freeList
  unused : s.refCount pg = 0
  refCount : t.refCount = Function.update s.refCount pg 1
  memory : t.memory = Function.update s.memory pg (fun _ => 0)
  counts : t.freePages = s.freePages - 1 ∧ t.totalPages = s.totalPages

theorem pAlloc_AllocPage_allocates {s t : Frames} {pg : Nat} (ran : pAlloc_AllocPage s = some (pg, t)) :
    Allocated s pg t := by
  unfold pAlloc_AllocPage at ran
  split at ran
  · cases ran
  · rename_i first rest list
    split at ran
    · rename_i good
      cases ran
      exact ⟨list, good.2, rfl, rfl, rfl, rfl⟩
    · cases ran

theorem pAlloc_AllocPage_ends {s : Frames}
    (ready : ∀ pg ∈ s.freeList, s.magic pg = FREEPAGE_MAGIC_FREE ∧ s.refCount pg = 0)
    (free : s.freeList ≠ []) : ∃ pg t, pAlloc_AllocPage s = some (pg, t) := by
  cases list : s.freeList with
  | nil => exact absurd list free
  | cons pg rest =>
    obtain ⟨magic, unused⟩ := ready pg (list ▸ List.mem_cons_self)
    simp [pAlloc_AllocPage, list, magic, unused]

section

variable {s t : Frames} {pg : Nat}

theorem Allocated.spare (got : Allocated s pg t) : pg ∈ s.freeList := by
  rw [got.head]
  exact List.mem_cons_self

theorem Allocated.length (got : Allocated s pg t) : s.freeList.length = t.freeList.length + 1 := by
  rw [got.head]
  rfl

theorem Allocated.rest (got : Allocated s pg t) (nodup : s.freeList.Nodup) :
    t.freeList.Nodup ∧ ∀ page ∈ t.freeList, page ∈ s.freeList ∧ page ≠ pg := by
  rw [got.head] at nodup ⊢
  obtain ⟨fresh, distinct⟩ := List.nodup_cons.mp nodup
  refine ⟨distinct, fun page free => ⟨List.mem_cons_of_mem _ free, ?_⟩⟩
  rintro rfl
  exact fresh free

end

end BoringOs.PAlloc
