import BoringOs.BufCacheContent
import BoringOs.VfsPath

/-! File system calls on a cache whose entries are all referenced. `noSpace` counts the reads of the
cache that got no entry. Each of the checks below follows the function of the same name and says
whether every block that the call depends on can be had when it gets there. -/

namespace BoringOs.O2fs

open BufCache

/-- `BufCache_Read` finds the block in the cache or has an entry for it. -/
def available (s : BufState) (disk : DiskId) (offset : Nat) : Bool :=
  (bufCacheLookup s disk offset).2.1.isSome || !s.lruList.isEmpty

def blocksServed (body : IoState → EntryId → Nat → Nat → Nat → IoState) (fn : VNode) (rounds : Nat)
    (s : IoState) (buf off length : Nat) : Bool :=
  (blockVisits body fn rounds s buf off length).all fun visit =>
    available visit.1 fn.disk (bnDirect visit.1.memory (bufferOf visit.1 fn.fsptr) visit.2)

def o2fs_ReadServed (fn : VNode) (buf off length : Nat) (s : IoState) : Bool :=
  let size := bnSize s.cache.memory (bufferOf s.cache fn.fsptr)
  decide (sbBlockSize s.cache.memory (bufferOf s.cache fn.vfs.fsptr) = 0) || (decide (off > size) ||
    blocksServed readBlock fn (readLength size off length + 1) s buf off (readLength size off length))

def o2fs_WriteServed (fn : VNode) (buf off length : Nat) (s : IoState) : Bool :=
  if sbBlockSize s.cache.memory (bufferOf s.cache fn.vfs.fsptr) = 0 then true
  else if bnSize s.cache.memory (bufferOf s.cache fn.fsptr) < add64 off length then
    match o2fsGrowVNode fn (add64 off length) s.cache with
    | none => true
    | some (status, cache) =>
      if status < 0 then true
      else blocksServed writeBlock fn (length + 1) { s with cache := cache } buf off length
  else blocksServed writeBlock fn (length + 1) s buf off length

/-- Of a directory block that cannot be had `O2FS_Lookup` does report the error; the block node of
the entry that it finds has to be there. -/
def o2fs_LookupServed (dn : VNode) (name : List UInt8) (s : BufState) : Bool :=
  let blockSize := sbBlockSize s.memory (bufferOf s dn.vfs.fsptr)
  decide (blockSize ≠ 0) &&
    match lookupLoop dn name (blocksOf (bnSize s.memory (bufferOf s dn.fsptr)) blockSize) 0 s with
    | some (_, some offset, t) => available t dn.vfs.disk offset
    | _ => true

def o2fs_GetRootServed (fs : VFS) (root : Option VNode) (s : BufState) : Bool :=
  root.isSome || available s fs.disk fs.fsval

/-- The blocks of the bitmap loop of `O2FS_Mount`. -/
def bitmapServed (disk : DiskId) (sb : EntryId) (rounds i : Nat) (s : BufState) : Bool :=
  (bitmapReads disk sb rounds i s).all fun read => available read.1 disk read.2

/-- A bitmap block that cannot be had is passed over, so it is enough that the root node is
refused later; the superblock and the root node have to be there. -/
def o2fs_MountServed (disk : DiskId) (s : BufState) : Bool :=
  available s disk 0 &&
    match bufCache_Read s disk 0 with
    | (status, entry, s) =>
      decide (status < 0) ||
        match entry with
        | none => true
        | some sb =>
          !superBlockOk s.memory (bufferOf s sb) ||
            match mountBitmap disk sb 17 0 (fun _ => none) s with
            | none => false
            | some (none, _) => true
            | some (some _, t) =>
              let root := sbRootOffset t.memory (bufferOf t sb)
              available t disk root &&
                (bitmapServed disk sb 17 0 s ||
                  match loadBNode disk root t with
                  | some (status, _, _) => decide (status < 0)
                  | none => true)

section

variable {s : BufState} {disk : DiskId} {offset : Nat}

theorem bufCache_Read_exhausted (missing : available s disk offset = false) :
    bufCache_Read s disk offset =
      (ENOMEM, none, { s with cacheMiss := s.cacheMiss + 1, noSpace := s.noSpace + 1 }) := by
  rw [available, Bool.or_eq_false_iff, Bool.not_eq_false', List.isEmpty_iff] at missing
  obtain ⟨absent, empty⟩ := missing
  unfold bufCacheLookup at absent
  unfold bufCache_Read bufCacheLookup
  split at absent
  · cases absent
  · simp only [bufCacheAlloc, empty]

theorem bufCache_Read_served (served : available s disk offset = true) :
    ∃ status e t, bufCache_Read s disk offset = (status, some e, t) ∧ t.noSpace = s.noSpace ∧
      (s.lruList ≠ [] → (t.entry e).refCount = 1 ∨ t.lruList ≠ []) := by
  rcases found : (s.hashTable (offset % HASHTABLEENTRIES)).find?
      (fun e => (s.entry e).matches disk offset) with _ | e
  · have lookup : bufCacheLookup s disk offset = (ENOENT, none, s) := by
      unfold bufCacheLookup
      rw [found]
    cases list : s.lruList with
    | nil => simp [available, lookup, list] at served
    | cons e rest =>
      refine ⟨_, e, _, by simp only [bufCache_Read, lookup, bufCacheAlloc, list]; rfl, ?_, ?_⟩
      · rw [(diskRead_frame _ _ _ _ _).2.2.1]
        exact (recycleEntry_frame { s with cacheMiss := s.cacheMiss + 1 } e rest disk offset).2.2.2.1
      · intro _
        left
        rw [(diskRead_lists _ _ _ _ _).1]
        simp [rehashEntry]
  · have lookup : bufCacheLookup s disk offset = (0, some e, retainEntry s e) := by
      unfold bufCacheLookup
      rw [found]
    refine ⟨0, e, { retainEntry s e with cacheHit := s.cacheHit + 1 },
      by simp only [bufCache_Read, lookup]; rfl, rfl, ?_⟩
    intro some_free
    by_cases first : (s.entry e).refCount = 0
    · left
      simpa [retainEntry] using first
    · right
      simpa [retainEntry, first] using some_free

theorem bufCache_Read_counts_iff :
    (bufCache_Read s disk offset).2.2.noSpace = s.noSpace ↔ available s disk offset = true := by
  constructor
  · intro same
    by_contra missing
    rw [Bool.not_eq_true] at missing
    rw [bufCache_Read_exhausted missing] at same
    simp at same
  · intro served
    obtain ⟨_, _, _, result, same, _⟩ := bufCache_Read_served served
    rw [result]
    exact same

theorem available_of_free (free : s.lruList ≠ []) (disk : DiskId) (offset : Nat) :
    available s disk offset = true := by
  simp [available, free]

end

section

variable {body : IoState → EntryId → Nat → Nat → Nat → IoState} {fn : VNode}

theorem blockLoop_counts (fn : VNode)
    (silent : ∀ s e buf bOff bLen, (body s e buf bOff bLen).cache.noSpace = s.cache.noSpace) :
    ∀ rounds s buf off length moved,
      (blocksServed body fn rounds s buf off length = true → ∀ n t,
        blockLoop body fn rounds s buf off length moved = some (n, t) →
        t.cache.noSpace = s.cache.noSpace) ∧
      (blocksServed body fn rounds s buf off length = false → ∃ t,
        blockLoop body fn rounds s buf off length moved = some (ENOMEM, t) ∧
        t.cache.noSpace = s.cache.noSpace + 1) := by
  intro rounds
  induction rounds with
  | zero =>
    intro s buf off length moved
    exact ⟨fun _ n t ran => (by cases ran), fun missing => (by cases missing)⟩
  | succ rounds ih =>
    intro s buf off length moved
    rw [blocksServed, blockVisits, blockLoop]
    dsimp only
    generalize sbBlockSize s.cache.memory (bufferOf s.cache fn.vfs.fsptr) = blockSize
    generalize chunkLength blockSize off length = bLen
    by_cases zero : blockSize = 0
    · simp [zero]
    · rw [if_neg zero, if_neg zero, List.all_cons]
      dsimp only
      cases served : available s.cache fn.disk
          (bnDirect s.cache.memory (bufferOf s.cache fn.fsptr) (off / blockSize)) with
      | false =>
        have result := bufCache_Read_exhausted served
        refine ⟨fun impossible => (by cases impossible), fun _ => ?_⟩
        rw [o2fsResolveBuf, result]
        exact ⟨_, rfl, rfl⟩
      | true =>
        obtain ⟨status, e, cache, result, same, _⟩ := bufCache_Read_served served
        rw [Bool.true_and, o2fsResolveBuf, result]
        dsimp only
        by_cases failed : status ≠ 0
        · rw [if_pos failed, if_pos failed]
          refine ⟨fun _ n t ran => ?_, fun impossible => (by cases impossible)⟩
          cases ran
          exact same
        · rw [if_neg failed, if_neg failed]
          have round := silent { s with cache := cache } e buf (off % blockSize) bLen
          by_cases last : length - bLen = 0
          · rw [if_pos last, if_pos last]
            refine ⟨fun _ n t ran => ?_, fun impossible => (by cases impossible)⟩
            cases ran
            exact round.trans same
          · rw [if_neg last, if_neg last]
            obtain ⟨quiet, counted⟩ := ih (body { s with cache := cache } e buf (off % blockSize) bLen)
              (buf + bLen) (add64 off bLen) (length - bLen) (moved + bLen)
            rw [round] at quiet counted
            dsimp only at quiet counted
            rw [same] at quiet counted
            exact ⟨quiet, counted⟩

theorem blockLoop_reports_iff (fn : VNode)
    (silent : ∀ s e buf bOff bLen, (body s e buf bOff bLen).cache.noSpace = s.cache.noSpace)
    (rounds : Nat) (s : IoState) (buf off length : Nat) :
    (∀ n t, blockLoop body fn rounds s buf off length 0 = some (n, t) →
      t.cache.noSpace ≠ s.cache.noSpace → n < 0) ↔
    blocksServed body fn rounds s buf off length = true := by
  obtain ⟨quiet, counted⟩ := blockLoop_counts fn silent rounds s buf off length 0
  constructor
  · intro reports
    by_contra missing
    rw [Bool.not_eq_true] at missing
    obtain ⟨t, ran, more⟩ := counted missing
    exact absurd (reports ENOMEM t ran (by omega)) (by decide)
  · intro served n t ran more
    exact absurd (quiet served n t ran) more

theorem blocksServed_of_free
    (returns : ∀ s e buf bOff bLen, (s.cache.entry e).refCount = 1 ∨ s.cache.lruList ≠ [] →
      (body s e buf bOff bLen).cache.lruList ≠ []) :
    ∀ rounds s buf off length, s.cache.lruList ≠ [] →
      blocksServed body fn rounds s buf off length = true := by
  intro rounds
  induction rounds with
  | zero => intro s buf off length _; rfl
  | succ rounds ih =>
    intro s buf off length free
    have served := available_of_free free fn.disk (bnDirect s.cache.memory
      (bufferOf s.cache fn.fsptr)
      (off / sbBlockSize s.cache.memory (bufferOf s.cache fn.vfs.fsptr)))
    obtain ⟨status, e, cache, result, _, again⟩ := bufCache_Read_served served
    rw [blocksServed, blockVisits]
    dsimp only
    split
    · rfl
    rw [List.all_cons, served, o2fsResolveBuf, result, Bool.true_and]
    dsimp only
    split
    · rfl
    split
    · rfl
    · exact ih _ _ _ _ (returns _ _ _ _ _ (again free))

end

section

theorem bufCache_Write_noSpace (s : BufState) (e : EntryId) :
    (bufCache_Write s e).2.noSpace = s.noSpace := by
  unfold bufCache_Write diskWrite
  split
  · rfl
  · dsimp only
    split <;> rfl

theorem o2fsBAlloc_silent (fs : VFS) (s : BufState) :
    (o2fsBAlloc fs s).2.noSpace = s.noSpace ∧ (o2fsBAlloc fs s).2.lruList = s.lruList := by
  unfold o2fsBAlloc
  split
  · exact ⟨bufCache_Write_noSpace _ _, (bufCache_Write_lists _ _).2.2⟩
  · exact ⟨rfl, rfl⟩

theorem growLoop_silent (fs : VFS) (bn : Nat) : ∀ count i s,
    (growLoop fs bn count i s).2.noSpace = s.noSpace ∧
      (growLoop fs bn count i s).2.lruList = s.lruList := by
  intro count
  induction count with
  | zero => intro i s; exact ⟨rfl, rfl⟩
  | succ count ih =>
    intro i s
    have alloc := o2fsBAlloc_silent fs s
    rw [growLoop]
    split
    · exact ih (i + 1) s
    · dsimp only
      split
      · exact alloc
      · obtain ⟨counted, listed⟩ := ih (i + 1) { (o2fsBAlloc fs s).2 with
          memory := ByteMemory.storeLE (o2fsBAlloc fs s).2.memory (directAt bn i) 8
            (mul64 (o2fsBAlloc fs s).1 fs.blksize) }
        exact ⟨counted.trans alloc.1, listed.trans alloc.2⟩

theorem o2fsGrowVNode_silent {vn : VNode} {filesz : Nat} {s t : BufState} {status : Int}
    (ran : o2fsGrowVNode vn filesz s = some (status, t)) :
    t.noSpace = s.noSpace ∧ t.lruList = s.lruList := by
  unfold o2fsGrowVNode at ran
  dsimp only at ran
  split at ran
  · cases ran
  · split at ran
    · cases ran
      exact ⟨rfl, rfl⟩
    · generalize (if toInt32 (blocksOf (bnSize s.memory (bufferOf s vn.fsptr)) vn.vfs.blksize) < 0
        then 0 else blocksOf filesz vn.vfs.blksize -
          (toInt32 (blocksOf (bnSize s.memory (bufferOf s vn.fsptr)) vn.vfs.blksize)).toNat)
        = count at ran
      split at ran
      · cases ran
        exact growLoop_silent ..
      · cases ran
        rw [bufCache_Write_noSpace, (bufCache_Write_lists _ _).2.2]
        exact growLoop_silent ..

theorem release_free {s : BufState} {e : EntryId} {memory : ByteMemory.Memory}
    (free : (s.entry e).refCount = 1 ∨ s.lruList ≠ []) :
    (bufCache_Release { s with memory := memory } e).lruList ≠ [] := by
  unfold bufCache_Release
  dsimp only
  split
  · simp
  · rcases free with single | some_free
    · omega
    · exact some_free

theorem readBlock_silent (s : IoState) (e : EntryId) (buf bOff bLen : Nat) :
    (readBlock s e buf bOff bLen).cache.noSpace = s.cache.noSpace := rfl

theorem writeBlock_silent (s : IoState) (e : EntryId) (buf bOff bLen : Nat) :
    (writeBlock s e buf bOff bLen).cache.noSpace = s.cache.noSpace :=
  bufCache_Write_noSpace _ _

theorem readBlock_returns (s : IoState) (e : EntryId) (buf bOff bLen : Nat)
    (free : (s.cache.entry e).refCount = 1 ∨ s.cache.lruList ≠ []) :
    (readBlock s e buf bOff bLen).cache.lruList ≠ [] :=
  release_free free

theorem writeBlock_returns (s : IoState) (e : EntryId) (buf bOff bLen : Nat)
    (free : (s.cache.entry e).refCount = 1 ∨ s.cache.lruList ≠ []) :
    (writeBlock s e buf bOff bLen).cache.lruList ≠ [] := by
  obtain ⟨entries, _, lists⟩ :=
    bufCache_Write_lists (s.copyFrom (bufferOf s.cache e + bOff) buf bLen).cache e
  unfold writeBlock
  dsimp only
  refine release_free ?_
  rw [entries, lists]
  exact free

variable (fn : VNode) (buf off length : Nat) (s : IoState)

theorem o2fs_Read_reports_iff :
    (∀ n t, o2fs_Read fn buf off length s = some (n, t) →
      t.cache.noSpace ≠ s.cache.noSpace → n < 0) ↔ o2fs_ReadServed fn buf off length s = true := by
  rw [o2fs_Read, o2fs_ReadServed]
  dsimp only
  by_cases zero : sbBlockSize s.cache.memory (bufferOf s.cache fn.vfs.fsptr) = 0
  · simp [zero]
  · rw [if_neg zero, decide_eq_false zero, Bool.false_or]
    by_cases beyond : off > bnSize s.cache.memory (bufferOf s.cache fn.fsptr)
    · rw [if_pos beyond, decide_eq_true beyond, Bool.true_or]
      refine ⟨fun _ => rfl, fun _ n t ran more => ?_⟩
      cases ran
      exact absurd rfl more
    · rw [if_neg beyond, decide_eq_false beyond, Bool.false_or]
      exact blockLoop_reports_iff fn readBlock_silent _ s buf off _

theorem o2fs_Write_reports_iff :
    (∀ n t, o2fs_Write fn buf off length s = some (n, t) →
      t.cache.noSpace ≠ s.cache.noSpace → n < 0) ↔ o2fs_WriteServed fn buf off length s = true := by
  rw [o2fs_Write, o2fs_WriteServed]
  split
  · simp
  · split
    · cases grown : o2fsGrowVNode fn (add64 off length) s.cache with
      | none => simp
      | some result =>
        obtain ⟨status, cache⟩ := result
        have silent := (o2fsGrowVNode_silent grown).1
        dsimp only
        split
        · refine ⟨fun _ => rfl, fun _ n t ran more => ?_⟩
          cases ran
          exact absurd silent more
        · have loop := blockLoop_reports_iff fn writeBlock_silent (length + 1)
            { s with cache := cache } buf off length
          dsimp only at loop
          rwa [silent] at loop
    · exact blockLoop_reports_iff fn writeBlock_silent _ s buf off length

theorem transfers_served (free : s.cache.lruList ≠ []) :
    o2fs_ReadServed fn buf off length s = true ∧ o2fs_WriteServed fn buf off length s = true := by
  constructor
  · simp only [o2fs_ReadServed, blocksServed_of_free readBlock_returns _ s buf off _ free,
      Bool.or_true]
  · unfold o2fs_WriteServed
    split
    · rfl
    · split
      · cases grown : o2fsGrowVNode fn (add64 off length) s.cache with
        | none => rfl
        | some result =>
          obtain ⟨status, cache⟩ := result
          dsimp only
          split
          · rfl
          · refine blocksServed_of_free writeBlock_returns _ _ _ _ _ ?_
            rw [(o2fsGrowVNode_silent grown).2]
            exact free
      · exact blocksServed_of_free writeBlock_returns _ _ _ _ _ free

end

section

theorem loadBNode_exhausted {s : BufState} {disk : DiskId} {offset : Nat}
    (missing : available s disk offset = false) : loadBNode disk offset s = none := by
  rw [loadBNode, bufCache_Read_exhausted missing]
  rfl

theorem loadBNode_served {s : BufState} {disk : DiskId} {offset : Nat}
    (served : available s disk offset = true) :
    ∃ status entry t, loadBNode disk offset s = some (status, entry, t) ∧
      t.noSpace = s.noSpace ∧ (status < 0 ↔ entry = none) := by
  obtain ⟨status, e, t, result, same, _⟩ := bufCache_Read_served served
  rw [loadBNode, result]
  dsimp only
  split
  · rename_i failed
    exact ⟨_, _, _, rfl, same, by simp [failed]⟩
  · split
    · exact ⟨_, _, _, rfl, same, by simp⟩
    · exact ⟨_, _, _, rfl, same, by simp⟩

variable (fs : VFS) (s : BufState)

theorem o2fsLoadVNode_reports_iff (offset : Nat) :
    (∃ vn t, o2fsLoadVNode fs offset s = some (vn, t) ∧ (t.noSpace ≠ s.noSpace → vn = none)) ↔
      available s fs.disk offset = true := by
  constructor
  · rintro ⟨vn, t, ran, _⟩
    by_contra missing
    rw [Bool.not_eq_true] at missing
    rw [o2fsLoadVNode, loadBNode_exhausted missing] at ran
    cases ran
  · intro served
    obtain ⟨_, _, _, result, same, _⟩ := loadBNode_served served
    rw [o2fsLoadVNode, result]
    exact ⟨_, _, rfl, fun more => absurd same more⟩

theorem o2fs_GetRoot_reports_iff (root : Option VNode) :
    (∃ status vn t, o2fs_GetRoot fs root s = some (status, vn, t) ∧
      (t.noSpace ≠ s.noSpace → status ≠ 0)) ↔ o2fs_GetRootServed fs root s = true := by
  cases root with
  | some vn => exact ⟨fun _ => rfl, fun _ => ⟨_, _, _, rfl, fun more => absurd rfl more⟩⟩
  | none =>
    rw [o2fs_GetRootServed, Option.isSome_none, Bool.false_or]
    constructor
    · rintro ⟨_, _, _, ran, _⟩
      by_contra missing
      rw [Bool.not_eq_true] at missing
      rw [o2fs_GetRoot, loadBNode_exhausted missing] at ran
      cases ran
    · intro served
      obtain ⟨_, _, _, result, same, _⟩ := loadBNode_served served
      rw [o2fs_GetRoot, result]
      exact ⟨_, _, _, rfl, fun more => absurd same more⟩

theorem lookupLoop_counts (dn : VNode) (name : List UInt8) : ∀ count b s, ∃ status found t,
    lookupLoop dn name count b s = some (status, found, t) ∧
      (t.noSpace ≠ s.noSpace → status ≠ 0 ∧ found = none) := by
  intro count
  induction count with
  | zero => exact fun b s => ⟨_, _, _, rfl, fun more => absurd rfl more⟩
  | succ count ih =>
    intro b s
    rw [lookupLoop]
    dsimp only
    cases served : available s dn.disk (bnDirect s.memory (bufferOf s dn.fsptr) b) with
    | false =>
      rw [o2fsResolveBuf, bufCache_Read_exhausted served]
      exact ⟨_, _, _, rfl, fun _ => ⟨(by decide : ENOMEM ≠ 0), rfl⟩⟩
    | true =>
      obtain ⟨status, e, t, result, same, _⟩ := bufCache_Read_served served
      rw [o2fsResolveBuf, result]
      dsimp only
      by_cases failed : status ≠ 0
      · rw [if_pos failed]
        exact ⟨_, _, _, rfl, fun more => absurd same more⟩
      · rw [if_neg failed]
        generalize Search.firstHit (dirProbe t.memory (bufferOf t e) name)
          (toInt32 (sbBlockSize s.memory (bufferOf s dn.vfs.fsptr) / BDIRENTRY_SIZE)).toNat = found
        cases found with
        | some offset => exact ⟨_, _, _, rfl, fun more => absurd same more⟩
        | none =>
          have later := ih (b + 1) (bufCache_Release t e)
          have released : (bufCache_Release t e).noSpace = s.noSpace := same
          rwa [released] at later

theorem o2fs_Lookup_counts (dn : VNode) (name : List UInt8) :
    (o2fs_LookupServed dn name s = true → ∃ status fn t,
      o2fs_Lookup dn name s = some (status, fn, t) ∧
      (t.noSpace ≠ s.noSpace → status ≠ 0 ∧ fn = none)) ∧
    (o2fs_LookupServed dn name s = false → o2fs_Lookup dn name s = none) := by
  rw [o2fs_LookupServed, o2fs_Lookup]
  by_cases zero : sbBlockSize s.memory (bufferOf s dn.vfs.fsptr) = 0
  · simp [zero]
  · rw [if_neg zero, decide_eq_true zero, Bool.true_and]
    obtain ⟨status, found, t, searched, reports⟩ := lookupLoop_counts dn name
      (blocksOf (bnSize s.memory (bufferOf s dn.fsptr)) (sbBlockSize s.memory (bufferOf s dn.vfs.fsptr))) 0 s
    simp only [searched]
    cases found with
    | none =>
      exact ⟨fun _ => ⟨_, _, _, rfl, fun more => ⟨(reports more).1, rfl⟩⟩,
        fun missing => (by cases missing)⟩
    | some offset =>
      have same : t.noSpace = s.noSpace := by
        by_contra more
        cases (reports more).2
      dsimp only
      constructor
      · intro there
        obtain ⟨_, _, u, loaded, silent, _⟩ := loadBNode_served there
        rw [o2fsLoadVNode, loaded]
        exact ⟨_, _, _, rfl, fun more => absurd (silent.trans same) more⟩
      · intro missing
        rw [o2fsLoadVNode, loadBNode_exhausted missing]
        rfl

theorem o2fs_Lookup_reports_iff (dn : VNode) (name : List UInt8) :
    (∃ status fn t, o2fs_Lookup dn name s = some (status, fn, t) ∧
      (t.noSpace ≠ s.noSpace → status ≠ 0)) ↔ o2fs_LookupServed dn name s = true := by
  obtain ⟨returns, faults⟩ := o2fs_Lookup_counts s dn name
  constructor
  · rintro ⟨_, _, _, ran, _⟩
    by_contra missing
    rw [Bool.not_eq_true] at missing
    rw [faults missing] at ran
    cases ran
  · intro served
    obtain ⟨status, fn, t, ran, reports⟩ := returns served
    exact ⟨status, fn, t, ran, fun more => (reports more).1⟩

end

section

variable {disk : DiskId} {sb : EntryId}

theorem bufCache_Read_noSpace_le (s : BufState) (disk : DiskId) (offset : Nat) :
    s.noSpace ≤ (bufCache_Read s disk offset).2.2.noSpace := by
  cases served : available s disk offset with
  | false =>
    rw [bufCache_Read_exhausted served]
    exact Nat.le_succ _
  | true => exact (bufCache_Read_counts_iff.mpr served).ge

theorem releaseBitmap_silent {bitmap : Nat → Option EntryId} {s t : BufState}
    (ran : releaseBitmap bitmap s = some t) : t.noSpace = s.noSpace := by
  have fold : ∀ (places : List Nat) (s : BufState),
      places.foldlM (fun s i => (bitmap i).map (bufCache_Release s)) s = some t →
      t.noSpace = s.noSpace := by
    intro places
    induction places with
    | nil =>
      intro s ran
      cases ran
      rfl
    | cons i places ih =>
      intro s ran
      rw [List.foldlM_cons] at ran
      obtain ⟨u, released, rest⟩ := Option.bind_eq_some_iff.mp ran
      obtain ⟨e, _, rfl⟩ := Option.map_eq_some_iff.mp released
      have later := ih _ rest
      exact later
  exact fold _ s ran

theorem mountBitmap_counts : ∀ rounds i bitmap s result t,
    mountBitmap disk sb rounds i bitmap s = some (result, t) → s.noSpace ≤ t.noSpace ∧
      (t.noSpace = s.noSpace ↔ bitmapServed disk sb rounds i s = true) := by
  intro rounds
  induction rounds with
  | zero => intro i bitmap s result t ran; cases ran
  | succ rounds ih =>
    intro i bitmap s result t ran
    rw [mountBitmap] at ran
    rw [bitmapServed, bitmapReads]
    dsimp only at ran ⊢
    by_cases more : i < sbBitmapSize s.memory (bufferOf s sb)
    · rw [if_pos more] at ran
      rw [if_pos more]
      split at ran
      · cases ran
      · next below =>
        rw [if_neg below, List.all_cons]
        generalize add64 (sbBitmapOffset s.memory (bufferOf s sb))
          (mul64 i (sbBlockSize s.memory (bufferOf s sb))) = offset at ran ⊢
        have grows := bufCache_Read_noSpace_le s disk offset
        have counts : (bufCache_Read s disk offset).2.2.noSpace = s.noSpace ↔
          available s disk offset = true := bufCache_Read_counts_iff
        generalize bufCache_Read s disk offset = read at ran grows counts ⊢
        obtain ⟨status, entry, u⟩ := read
        dsimp only at ran grows counts ⊢
        split at ran
        · rename_i failed
          obtain ⟨v, released, same⟩ := Option.map_eq_some_iff.mp ran
          cases same
          have silent : v.noSpace = u.noSpace := releaseBitmap_silent released
          have final : (bufCache_Release v sb).noSpace = u.noSpace := silent
          rw [final, counts, if_pos failed, List.all_nil, Bool.and_true]
          exact ⟨grows, Iff.rfl⟩
        · rename_i readable
          obtain ⟨later, laterCounts⟩ := ih _ _ _ _ _ ran
          rw [if_neg readable, Bool.and_eq_true, ← counts, ← bitmapServed, ← laterCounts]
          constructor
          · omega
          · omega
    · rw [if_neg more] at ran
      cases ran
      rw [if_neg more]
      exact ⟨le_rfl, iff_of_true rfl rfl⟩

theorem none_reports_iff {Result : Type} {good : Result → BufState → Prop} :
    (∃ result t, (none : Option (Result × BufState)) = some (result, t) ∧ good result t) ↔
      false = true := by
  constructor
  · rintro ⟨result, t, ran, -⟩
    cases ran
  · intro impossible
    cases impossible

theorem o2fs_Mount_reports_iff (disk : DiskId) (s : BufState) :
    (∃ mounted t, o2fs_Mount disk s = some (mounted, t) ∧
      (t.noSpace ≠ s.noSpace → mounted = none)) ↔ o2fs_MountServed disk s = true := by
  rw [o2fs_Mount, o2fs_MountServed]
  cases served : available s disk 0 with
  | false =>
    rw [bufCache_Read_exhausted served]
    exact none_reports_iff
  | true =>
    obtain ⟨status, sb, t, result, same, _⟩ := bufCache_Read_served served
    rw [result, Bool.true_and]
    dsimp only
    by_cases failed : status < 0
    · rw [if_pos failed, decide_eq_true failed, Bool.true_or]
      exact iff_of_true ⟨_, _, rfl, fun _ => rfl⟩ rfl
    · rw [if_neg failed, decide_eq_false failed, Bool.false_or]
      cases valid : superBlockOk t.memory (bufferOf t sb) with
      | false => exact iff_of_true ⟨_, _, rfl, fun _ => rfl⟩ rfl
      | true =>
        rw [if_pos rfl, Bool.not_true, Bool.false_or]
        rcases loop : mountBitmap disk sb 17 0 (fun _ => none) t with _ | ⟨_ | bitmap, u⟩
        · exact none_reports_iff
        · exact iff_of_true ⟨_, _, rfl, fun _ => rfl⟩ rfl
        · obtain ⟨_, counts⟩ := mountBitmap_counts _ _ _ _ _ _ loop
          rw [same] at counts
          dsimp only
          rw [o2fs_GetRoot]
          dsimp only
          cases there : available u disk (sbRootOffset u.memory (bufferOf u sb)) with
          | false =>
            rw [loadBNode_exhausted there]
            exact none_reports_iff
          | true =>
            obtain ⟨answer, entry, v, loaded, silent, refused⟩ := loadBNode_served there
            rw [loaded, Bool.true_and, Bool.or_eq_true, ← counts]
            dsimp only [Option.map_some]
            by_cases no : answer < 0
            · rw [if_pos no, decide_eq_true no]
              exact iff_of_true ⟨_, _, rfl, fun _ => rfl⟩ (.inr rfl)
            · rw [if_neg no, decide_eq_false no]
              cases entry with
              | none => exact absurd (refused.mpr rfl) no
              | some e =>
                constructor
                · rintro ⟨mounted, w, ran, reports⟩
                  cases ran
                  rw [silent] at reports
                  by_contra counted
                  rw [or_iff_left (by decide)] at counted
                  exact absurd (reports counted) (by simp)
                · intro quiet
                  rw [or_iff_left (by decide)] at quiet
                  exact ⟨_, _, rfl, fun more => absurd (silent.trans quiet) more⟩

end

end BoringOs.O2fs

namespace BoringOs.Vfs

open BufCache O2fs

def piecesServed : VNode → List (List UInt8) → BufState → Bool
  | _, [], _ => true
  | node, name :: more, s =>
    (name.length == 0 || decide (name.length > 256)) ||
      (name.length != 256 && (o2fs_LookupServed node name s &&
        match o2fs_Lookup node name s with
        | none => true
        | some (status, child, s) =>
          decide (status < 0) ||
            match child with
            | none => endsAt more
            | some child => piecesServed child more s))

def vfs_LookupServed (rootFS : VFS) (root : Option VNode) (path : List UInt8) (s : BufState) : Bool :=
  match path with
  | [] => true
  | c :: start =>
    c != slash ||
      (o2fs_GetRootServed rootFS root s &&
        match o2fs_GetRoot rootFS root s with
        | some (_, some node, s) => piecesServed node (pieces start) s
        | _ => false)

theorem lookupPieces_stays_null {path : List (List UInt8)} {s t : BufState} {vn : Option VNode}
    (ran : lookupPieces none path s = some (vn, t)) : vn = none := by
  cases path with
  | nil =>
    cases ran
    rfl
  | cons name rest =>
    rw [lookupPieces] at ran
    split at ran
    · cases ran
      rfl
    · split at ran
      · cases ran
        rfl
      · split at ran <;> cases ran

theorem lookupPieces_reports_iff (path : List (List UInt8)) : ∀ (node : VNode) (s : BufState),
    (∃ vn t, lookupPieces (some node) path s = some (vn, t) ∧ (t.noSpace ≠ s.noSpace → vn = none)) ↔
      piecesServed node path s = true := by
  induction path with
  | nil =>
    intro node s
    exact iff_of_true ⟨_, _, rfl, fun more => absurd rfl more⟩ rfl
  | cons name rest ih =>
    intro node s
    rw [lookupPieces, piecesServed]
    by_cases empty : name.length = 0
    · rw [if_pos empty, beq_iff_eq.mpr empty]
      exact iff_of_true ⟨_, _, rfl, fun more => absurd rfl more⟩ rfl
    · rw [if_neg empty, beq_eq_false_iff_ne.mpr empty, Bool.false_or]
      by_cases long : name.length > 256
      · rw [if_pos long, decide_eq_true long]
        exact iff_of_true ⟨_, _, rfl, fun more => absurd rfl more⟩ rfl
      · rw [if_neg long, decide_eq_false long, Bool.false_or]
        by_cases limit : name.length = 256
        · rw [if_pos limit, limit]
          exact none_reports_iff
        · rw [if_neg limit, bne_iff_ne.mpr limit, Bool.true_and]
          obtain ⟨returns, faults⟩ := o2fs_Lookup_counts s node name
          cases served : o2fs_LookupServed node name s with
          | false =>
            rw [faults served]
            exact none_reports_iff
          | true =>
            obtain ⟨status, child, t, found, reports⟩ := returns served
            rw [found, Bool.true_and]
            dsimp only
            by_cases failed : status < 0
            · rw [if_pos failed, decide_eq_true failed]
              exact iff_of_true ⟨_, _, rfl, fun _ => rfl⟩ rfl
            · rw [if_neg failed, decide_eq_false failed, Bool.false_or]
              cases child with
              | none =>
                rw [← lookupPieces_null rest t]
                constructor
                · rintro ⟨vn, u, ran, _⟩
                  refine ⟨u, ?_⟩
                  rw [ran, lookupPieces_stays_null ran]
                · rintro ⟨u, ran⟩
                  exact ⟨none, u, ran, fun _ => rfl⟩
              | some child =>
                have quiet : t.noSpace = s.noSpace := by
                  by_contra more
                  exact absurd (reports more).2 (by simp)
                rw [← ih child t, quiet]

theorem vfs_Lookup_reports_iff (rootFS : VFS) (root : Option VNode) (path : List UInt8)
    (s : BufState) :
    (∃ vn t, vfs_Lookup rootFS root path s = some (vn, t) ∧ (t.noSpace ≠ s.noSpace → vn = none)) ↔
      vfs_LookupServed rootFS root path s = true := by
  cases path with
  | nil => exact iff_of_true ⟨_, _, rfl, fun _ => rfl⟩ rfl
  | cons c start =>
    rw [vfs_Lookup, vfs_LookupServed]
    by_cases other : c ≠ slash
    · rw [if_pos other, bne_iff_ne.mpr other]
      exact iff_of_true ⟨_, _, rfl, fun _ => rfl⟩ rfl
    · rw [if_neg other, not_not.mp other, bne_self_eq_false, Bool.false_or]
      have walk : ∀ node t, t.noSpace = s.noSpace → ((∃ vn u,
          vfs_LookupLoop (start.length + 1) (some node) start t = some (vn, u) ∧
          (u.noSpace ≠ s.noSpace → vn = none)) ↔ piecesServed node (pieces start) t = true) := by
        intro node t same
        rw [vfs_LookupLoop_pieces _ _ _ _ (Nat.lt_succ_self _), ← same]
        exact lookupPieces_reports_iff (pieces start) node t
      cases root with
      | some node => exact walk node s rfl
      | none =>
        rw [o2fs_GetRootServed, Option.isSome_none, Bool.false_or, o2fs_GetRoot]
        dsimp only
        cases served : available s rootFS.disk rootFS.fsval with
        | false =>
          rw [loadBNode_exhausted served]
          exact none_reports_iff
        | true =>
          obtain ⟨status, entry, t, loaded, same, refused⟩ := loadBNode_served served
          rw [loaded, Bool.true_and]
          dsimp only [Option.map_some]
          cases entry with
          | none =>
            rw [if_pos (refused.mpr rfl)]
            exact none_reports_iff
          | some e =>
            rw [if_neg (fun failed => absurd (refused.mp failed) (by simp))]
            exact walk _ t same

/-- Cache exhaustion is reported exactly where the blocks that the call depends on can be had, and
one unreferenced entry is enough for the four calls that hold one block at a time. -/
theorem cache_exhaustion_reported_iff (s : IoState) :
    (∀ fn buf off length,
      (∀ n t, o2fs_Read fn buf off length s = some (n, t) →
        t.cache.noSpace ≠ s.cache.noSpace → n < 0) ↔ o2fs_ReadServed fn buf off length s = true) ∧
    (∀ fn buf off length,
      (∀ n t, o2fs_Write fn buf off length s = some (n, t) →
        t.cache.noSpace ≠ s.cache.noSpace → n < 0) ↔ o2fs_WriteServed fn buf off length s = true) ∧
    (∀ fs offset,
      (∃ vn t, o2fsLoadVNode fs offset s.cache = some (vn, t) ∧
        (t.noSpace ≠ s.cache.noSpace → vn = none)) ↔ available s.cache fs.disk offset = true) ∧
    (∀ fs root,
      (∃ status vn t, o2fs_GetRoot fs root s.cache = some (status, vn, t) ∧
        (t.noSpace ≠ s.cache.noSpace → status ≠ 0)) ↔ o2fs_GetRootServed fs root s.cache = true) ∧
    (∀ dn name,
      (∃ status fn t, o2fs_Lookup dn name s.cache = some (status, fn, t) ∧
        (t.noSpace ≠ s.cache.noSpace → status ≠ 0)) ↔ o2fs_LookupServed dn name s.cache = true) ∧
    (∀ rootFS root path,
      (∃ vn t, vfs_Lookup rootFS root path s.cache = some (vn, t) ∧
        (t.noSpace ≠ s.cache.noSpace → vn = none)) ↔
        vfs_LookupServed rootFS root path s.cache = true) ∧
    (∀ disk,
      (∃ mounted t, o2fs_Mount disk s.cache = some (mounted, t) ∧
        (t.noSpace ≠ s.cache.noSpace → mounted = none)) ↔ o2fs_MountServed disk s.cache = true) ∧
    (s.cache.lruList ≠ [] →
      (∀ fn buf off length, o2fs_ReadServed fn buf off length s = true ∧
        o2fs_WriteServed fn buf off length s = true) ∧
      (∀ fs root, o2fs_GetRootServed fs root s.cache = true) ∧
      ∀ disk offset, available s.cache disk offset = true) := by
  refine ⟨fun fn buf off length => o2fs_Read_reports_iff fn buf off length s,
    fun fn buf off length => o2fs_Write_reports_iff fn buf off length s,
    fun fs offset => o2fsLoadVNode_reports_iff fs s.cache offset,
    fun fs root => o2fs_GetRoot_reports_iff fs s.cache root,
    fun dn name => o2fs_Lookup_reports_iff s.cache dn name,
    fun rootFS root path => vfs_Lookup_reports_iff rootFS root path s.cache,
    fun disk => o2fs_Mount_reports_iff disk s.cache, ?_⟩
  intro free
  refine ⟨fun fn buf off length => transfers_served fn buf off length s free, ?_,
    available_of_free free⟩
  intro fs root
  rw [o2fs_GetRootServed, available_of_free free, Bool.or_true]

/-- A cache with a reference to every entry: entry `e` holds block `e` of disk 0. -/
def fullCache (memory : ByteMemory.Memory) : BufState where
  entry e := ⟨some 0, BLOCKSIZE * e, 1, BLOCKSIZE * e⟩
  hashTable h := if h = 0 then List.range CACHEENTRIES else []
  lruList := []
  memory := memory
  cacheHit := 0
  cacheMiss := CACHEENTRIES
  cacheAlloc := 0
  noSpace := 0
  disk _ := memory
  readStatus _ := 0
  writeStatus _ := 0
  writes := []

theorem fullCache_inv (memory : ByteMemory.Memory) : RepInv 0 (fullCache memory) := by
  constructor
  · intro e _
    simp [fullCache]
  · intro e member
    simp [fullCache] at member
  · intro e bound h _
    have aligned : BLOCKSIZE * e % HASHTABLEENTRIES = 0 := by
      unfold BLOCKSIZE HASHTABLEENTRIES
      omega
    simp only [fullCache, aligned, ne_eq, reduceCtorEq, not_false_eq_true, true_and]
    by_cases first : h = 0
    · rw [if_pos first, if_pos first.symm]
      exact List.count_eq_one_of_mem List.nodup_range (List.mem_range.mpr bound)
    · rw [if_neg first, if_neg (Ne.symm first)]
      rfl
  · intro h _ e member
    simp only [fullCache] at member
    split at member
    · exact List.mem_range.mp member
    · cases member
  · intro e _ other _ _ _ same
    simp only [fullCache] at same
    exact Nat.eq_of_mul_eq_mul_left (by decide) same
  · intro e _
    simp [fullCache]
  · intro e _ _
    simp [fullCache]

/-- A superblock in the buffer of entry 0 and, in that of entry 1, a file of one byte in block
1024, which no entry holds. -/
def fullMemory : ByteMemory.Memory :=
  ByteMemory.storeLE (ByteMemory.storeLE (ByteMemory.storeLE (fun _ => 0) 32 8 BLOCKSIZE)
    (BLOCKSIZE + 16) 8 1) (directAt BLOCKSIZE 0) 8 (BLOCKSIZE * CACHEENTRIES)

theorem fullCache_misses (memory : ByteMemory.Memory) :
    available (fullCache memory) 0 (BLOCKSIZE * CACHEENTRIES) = false := by
  have absent : (List.range CACHEENTRIES).find? (fun e =>
      ((fullCache memory).entry e).matches 0 (BLOCKSIZE * CACHEENTRIES)) = none := by
    rw [List.find?_eq_none]
    intro e member found
    have bound := List.mem_range.mp member
    simp only [fullCache, BufCacheEntry.matches, Bool.and_eq_true, beq_iff_eq] at found
    have same := Nat.eq_of_mul_eq_mul_left (by decide) found.2
    omega
  have chain : (fullCache memory).hashTable (BLOCKSIZE * CACHEENTRIES % HASHTABLEENTRIES) =
      List.range CACHEENTRIES := by
    have zero : BLOCKSIZE * CACHEENTRIES % HASHTABLEENTRIES = 0 := by decide
    simp only [fullCache, zero, ↓reduceIte]
  have lookup : (bufCacheLookup (fullCache memory) 0 (BLOCKSIZE * CACHEENTRIES)).2.1 = none := by
    rw [bufCacheLookup, chain, absent]
  rw [available, lookup]
  rfl

/-- With every entry referenced a read of the file returns the positive `ENOMEM` and moves no
byte. -/
theorem o2fs_read_counts_errors :
    ∃ fn t, o2fs_Read fn (BLOCKSIZE * CACHEENTRIES) 0 1 ⟨fullCache fullMemory, []⟩ = some (ENOMEM, t) ∧
      RepInv 0 (fullCache fullMemory) ∧ (∀ e, ((fullCache fullMemory).entry e).refCount ≠ 0) ∧
      t.cache.memory = (fullCache fullMemory).memory ∧ t.accesses = [] ∧ 0 < ENOMEM := by
  let fs : VFS := ⟨0, 0, 0, BLOCKSIZE, fun _ => none⟩
  let fn : VNode := ⟨0, 1, fs⟩
  have blockSize : sbBlockSize fullMemory 0 = BLOCKSIZE := by decide +kernel
  have size : bnSize fullMemory BLOCKSIZE = 1 := by decide +kernel
  have pointer : bnDirect fullMemory BLOCKSIZE 0 = BLOCKSIZE * CACHEENTRIES := by decide +kernel
  have missing := bufCache_Read_exhausted (fullCache_misses fullMemory)
  have resolved : o2fsResolveBuf fn 0 (fullCache fullMemory) =
      (ENOMEM, none, { fullCache fullMemory with cacheMiss := CACHEENTRIES + 1, noSpace := 1 }) := by
    have place : bufferOf (fullCache fullMemory) fn.fsptr = BLOCKSIZE := rfl
    have memory : (fullCache fullMemory).memory = fullMemory := rfl
    rw [o2fsResolveBuf, place, memory, pointer]
    exact missing
  refine ⟨fn, ⟨{ fullCache fullMemory with cacheMiss := CACHEENTRIES + 1, noSpace := 1 }, []⟩, ?_,
    fullCache_inv _, fun e => ?_, rfl, rfl, by decide⟩
  · have super : bufferOf (fullCache fullMemory) fn.vfs.fsptr = 0 := rfl
    have node : bufferOf (fullCache fullMemory) fn.fsptr = BLOCKSIZE := rfl
    have memory : (fullCache fullMemory).memory = fullMemory := rfl
    have first : 0 / BLOCKSIZE = 0 := rfl
    rw [o2fs_Read]
    dsimp only
    rw [super, node, memory, blockSize, size, if_neg (by decide), if_neg (by decide), blockLoop]
    dsimp only
    rw [super, memory, blockSize, if_neg (by decide), first, resolved]
    exact if_pos (by decide)
  · simp [fullCache]

end BoringOs.Vfs
