import BoringOs.BufCacheImage
import BoringOs.BufCacheReplacement

/-! What `BufCache_Read` leaves behind when the disk reports an error. -/

namespace BoringOs.BufCache

open ByteMemory Function

/-- `BufCache_Read` goes to the disk, which reports an error. -/
def FailedRead (s : BufState) (disk : DiskId) (offset : Nat) : Prop :=
  (∀ e, ¬ HasKey s e disk offset) ∧ (∃ e < CACHEENTRIES, (s.entry e).refCount = 0) ∧
    s.readStatus 0 ≠ 0

/-- The block is not cached in `t`, the references are those of `s`, and the next read of the
block is a miss. -/
structure Forgotten (s t : BufState) (disk : DiskId) (offset : Nat) : Prop where
  absent : ∀ e, ¬ HasKey t e disk offset
  counts : ∀ e, (t.entry e).refCount = (s.entry e).refCount
  evictable : (unreferenced t).card = (unreferenced s).card
  again : (bufCache_Read t disk offset).2.2.cacheMiss = t.cacheMiss + 1

section

variable {bufBase : Nat} {s : BufState}

section

variable (inv : RepInv bufBase s)
include inv

theorem bufCache_Read_hit {e : EntryId} {disk : DiskId} {offset : Nat}
    (key : HasKey s e disk offset) : bufCache_Read s disk offset =
      (0, some e, { retainEntry s e with cacheHit := s.cacheHit + 1 }) := by
  rcases bufCache_Read_cases inv disk offset with
    ⟨x, bound, sameDisk, sameOffset, result⟩ | ⟨fresh, _⟩ | ⟨fresh, _⟩
  · rw [HasKey.unique inv key ⟨bound, sameDisk, sameOffset⟩]
    exact result
  · exact absurd key.2 (fresh e key.1)
  · exact absurd key.2 (fresh e key.1)

theorem bufCache_Read_miss {disk : DiskId} {offset : Nat} (absent : ∀ e, ¬ HasKey s e disk offset)
    (free : ∃ e < CACHEENTRIES, (s.entry e).refCount = 0) :
    ∃ e rest, s.lruList = e :: rest ∧ bufCache_Read s disk offset =
      ((diskRead (recycleEntry { s with cacheMiss := s.cacheMiss + 1 } e rest disk offset) disk
          (s.entry e).buffer offset BLOCKSIZE).1, some e,
        (diskRead (recycleEntry { s with cacheMiss := s.cacheMiss + 1 } e rest disk offset) disk
          (s.entry e).buffer offset BLOCKSIZE).2) := by
  rcases bufCache_Read_cases inv disk offset with
    ⟨x, bound, sameDisk, sameOffset, _⟩ | ⟨_, empty, _⟩ | ⟨_, e, rest, head, result⟩
  · exact absurd ⟨bound, sameDisk, sameOffset⟩ (absent x)
  · obtain ⟨e, bound, unheld⟩ := free
    exact absurd unheld (inv.lru_empty.mp empty e bound)
  · exact ⟨e, rest, head, result⟩

theorem bufCache_Read_failed_keeps {disk : DiskId} {offset : Nat}
    (failed : FailedRead s disk offset) :
    let t := (bufCache_Read s disk offset).2.2
    (bufCache_Read s disk offset).1 = s.readStatus 0 ∧
    ∃ e, HasKey t e disk offset ∧ (s.entry e).refCount = 0 ∧ (t.entry e).refCount = 1 ∧
      e ∈ t.hashTable (offset % HASHTABLEENTRIES) ∧ t.memory = s.memory ∧
      unreferenced t = (unreferenced s).erase e ∧
      bufCache_Read t disk offset =
        (0, some e, { retainEntry t e with cacheHit := t.cacheHit + 1 }) := by
  intro t
  obtain ⟨absent, free, error⟩ := failed
  obtain ⟨e, rest, head, result⟩ := bufCache_Read_miss inv absent free
  obtain ⟨bound, unheld, _⟩ := inv.lru_head head
  have after : RepInv bufBase t := bufCache_Read_inv inv disk offset
  have status : (recycleEntry { s with cacheMiss := s.cacheMiss + 1 } e rest disk offset).readStatus =
      s.readStatus := (recycleEntry_frame _ e rest disk offset).2.2.2.2.2
  have issued : diskRead (recycleEntry { s with cacheMiss := s.cacheMiss + 1 } e rest disk offset)
      disk (s.entry e).buffer offset BLOCKSIZE = (s.readStatus 0,
        { recycleEntry { s with cacheMiss := s.cacheMiss + 1 } e rest disk offset with
          readStatus := fun n => s.readStatus (n + 1) }) := by
    unfold diskRead
    dsimp only
    rw [status, if_neg error]
  have state : t = { recycleEntry { s with cacheMiss := s.cacheMiss + 1 } e rest disk offset with
      readStatus := fun n => s.readStatus (n + 1) } := by
    show (bufCache_Read s disk offset).2.2 = _
    rw [result, issued]
  have entries : t.entry = update s.entry e
      { s.entry e with disk := some disk, diskOffset := offset, refCount := 1 } := by
    rw [state]
    exact recycleEntry_entry { s with cacheMiss := s.cacheMiss + 1 } e rest disk offset
  have key : HasKey t e disk offset := by
    refine ⟨bound, ?_, ?_⟩ <;> rw [entries, update_self]
  have count : (t.entry e).refCount = 1 := by rw [entries, update_self]
  have member : e ∈ t.hashTable (offset % HASHTABLEENTRIES) := by
    have chained := after.mem_chain bound key.2.1
    rwa [key.2.2] at chained
  refine ⟨by rw [result, issued], e, key, unheld, count, member, ?_, ?_, bufCache_Read_hit after key⟩
  · rw [state]
    exact (recycleEntry_frame { s with cacheMiss := s.cacheMiss + 1 } e rest disk offset).1
  · ext x
    simp only [unreferenced, Finset.mem_filter, Finset.mem_range, Finset.mem_erase]
    by_cases same : x = e
    · subst x
      simp [count]
    · rw [entries, update_of_ne same]
      tauto

theorem forgotten_iff (disk : DiskId) (offset : Nat) :
    (FailedRead s disk offset → Forgotten s (bufCache_Read s disk offset).2.2 disk offset) ↔
      ¬ FailedRead s disk offset := by
  constructor
  · intro law failed
    obtain ⟨_, e, key, _⟩ := bufCache_Read_failed_keeps inv failed
    exact (law failed).absent e key
  · intro fine failed
    exact absurd failed fine

end

end

/-! Runs in which it is noted whether the buffer of an entry has been read from or written to
its block since the entry was given that key. -/

structure Tracked where
  cache : BufState
  filled : EntryId → Bool

def Tracked.start (cache : BufState) : Tracked := ⟨cache, fun _ => false⟩

/-- `BufCache_Read`: a miss fills the buffer if the transfer succeeds. -/
def Tracked.read (c : Tracked) (disk : DiskId) (offset : Nat) : Tracked where
  cache := (bufCache_Read c.cache disk offset).2.2
  filled :=
    match (bufCacheLookup c.cache disk offset).2.1, (bufCache_Read c.cache disk offset).2.1 with
    | none, some e => Function.update c.filled e ((bufCache_Read c.cache disk offset).1 == 0)
    | _, _ => c.filled

def Tracked.write (c : Tracked) (e : EntryId) : Tracked where
  cache := (bufCache_Write c.cache e).2
  filled := if (bufCache_Write c.cache e).1 = 0 then Function.update c.filled e true else c.filled

inductive KernelCall where
  | read (disk : DiskId) (offset : Nat)
  | write (e : EntryId)
  | release (e : EntryId)

inductive TrackedStep : Tracked → KernelCall → Tracked → Prop where
  | read (c : Tracked) (disk : DiskId) (offset : Nat) (ok : ¬ FailedRead c.cache disk offset) :
      TrackedStep c (.read disk offset) (c.read disk offset)
  | write (c : Tracked) (e : EntryId) : TrackedStep c (.write e) (c.write e)
  | release (c : Tracked) (e : EntryId) (bound : e < CACHEENTRIES)
      (held : (c.cache.entry e).refCount ≠ 0) :
      TrackedStep c (.release e) ⟨bufCache_Release c.cache e, c.filled⟩

structure Transferred (bufBase : Nat) (c : Tracked) : Prop where
  rep : RepInv bufBase c.cache
  filled : ∀ e disk offset, HasKey c.cache e disk offset → c.filled e = true

section

variable {bufBase : Nat} {c : Tracked}

theorem Transferred.read (good : Transferred bufBase c) {disk : DiskId} {offset : Nat}
    (ok : ¬ FailedRead c.cache disk offset) : Transferred bufBase (c.read disk offset) := by
  refine ⟨bufCache_Read_inv good.rep disk offset, ?_⟩
  intro x d o key
  rcases bufCacheLookup_cases good.rep disk offset with
    ⟨e, bound, sameDisk, sameOffset, hit⟩ | ⟨fresh, miss⟩
  · have result := bufCache_Read_hit good.rep (⟨bound, sameDisk, sameOffset⟩ :
      HasKey c.cache e disk offset)
    have same : HasKey c.cache x d o := by
      simpa [Tracked.read, result, HasKey, retainEntry] using key
    simp only [Tracked.read, hit]
    exact good.filled x d o same
  · have absent : ∀ e, ¬ HasKey c.cache e disk offset := fun e key => fresh e key.1 key.2
    by_cases free : ∃ e < CACHEENTRIES, (c.cache.entry e).refCount = 0
    · obtain ⟨e, rest, head, result⟩ := bufCache_Read_miss good.rep absent free
      have success : c.cache.readStatus 0 = 0 := by
        by_contra error
        exact ok ⟨absent, free, error⟩
      have entries : (c.read disk offset).cache.entry = update c.cache.entry e
          { c.cache.entry e with disk := some disk, diskOffset := offset, refCount := 1 } := by
        show (bufCache_Read c.cache disk offset).2.2.entry = _
        rw [result, (diskRead_lists _ _ _ _ _).1]
        exact recycleEntry_entry { c.cache with cacheMiss := c.cache.cacheMiss + 1 } e rest disk offset
      have status : (bufCache_Read c.cache disk offset).1 = 0 := by
        rw [result]
        refine (diskRead_fills _ disk _ offset BLOCKSIZE 0 ?_ (by decide)).1
        rw [(recycleEntry_frame _ e rest disk offset).2.2.2.2.2]
        exact success
      have filled : (c.read disk offset).filled = update c.filled e true := by
        simp only [Tracked.read, miss, status]
        rw [result]
        rfl
      rw [filled]
      by_cases same : x = e
      · rw [same, update_self]
      · rw [update_of_ne same]
        unfold HasKey at key
        rw [entries, update_of_ne same] at key
        exact good.filled x d o key
    · have empty : c.cache.lruList = [] := good.rep.lru_empty.mpr
        (fun e bound unheld => free ⟨e, bound, unheld⟩)
      rcases bufCache_Read_cases good.rep disk offset with
        ⟨e, bound, sameDisk, sameOffset, _⟩ | ⟨_, _, result⟩ | ⟨_, e, rest, head, _⟩
      · exact absurd ⟨sameDisk, sameOffset⟩ (fresh e bound)
      · have same : HasKey c.cache x d o := by
          simpa [Tracked.read, result, HasKey] using key
        simp only [Tracked.read, miss, result]
        exact good.filled x d o same
      · rw [empty] at head
        cases head

theorem trackedStep_transferred {u : Tracked} {access : KernelCall} (good : Transferred bufBase c)
    (step : TrackedStep c access u) : Transferred bufBase u := by
  cases step with
  | read disk offset ok => exact good.read ok
  | write e =>
    obtain ⟨entries, chains, list⟩ := bufCache_Write_lists c.cache e
    refine ⟨good.rep.of_lists entries chains list, ?_⟩
    intro x d o key
    have same : HasKey c.cache x d o := by
      unfold HasKey Tracked.write at key
      rw [entries] at key
      exact key
    have before := good.filled x d o same
    unfold Tracked.write
    dsimp only
    split
    · by_cases here : x = e
      · rw [here, update_self]
      · rw [update_of_ne here]
        exact before
    · exact before
  | release e bound held =>
    refine ⟨release_inv good.rep bound held, ?_⟩
    intro x d o key
    have same : HasKey c.cache x d o := by
      simpa [bufCache_Release, HasKey] using key
    exact good.filled x d o same

end

/-- A block whose read failed is forgotten in no case: its entry stays in the hash table with a
reference, and the next read of it finds the old bytes of that buffer and returns 0. In runs
without such a failure every read that returns 0 hands out a buffer that was read from its block
or written to it. -/
theorem failed_reads_stay_cached (bufBase : Nat) :
    (∀ s disk offset, RepInv bufBase s →
      ((FailedRead s disk offset → Forgotten s (bufCache_Read s disk offset).2.2 disk offset) ↔
        ¬ FailedRead s disk offset)) ∧
    (∀ s disk offset, RepInv bufBase s → FailedRead s disk offset →
      let t := (bufCache_Read s disk offset).2.2
      (bufCache_Read s disk offset).1 ≠ 0 ∧ ∃ e, HasKey t e disk offset ∧
        e ∈ t.hashTable (offset % HASHTABLEENTRIES) ∧
        (t.entry e).refCount = (s.entry e).refCount + 1 ∧
        (unreferenced t).card + 1 = (unreferenced s).card ∧
        (bufCache_Read t disk offset).1 = 0 ∧ (bufCache_Read t disk offset).2.1 = some e ∧
        (bufCache_Read t disk offset).2.2.cacheMiss = t.cacheMiss ∧
        (bufCache_Read t disk offset).2.2.memory = s.memory) ∧
    (∀ memory disk readStatus writeStatus accesses c,
      Runs.Run TrackedStep (.start (bufCacheInit bufBase memory disk readStatus writeStatus))
        accesses c →
      ∀ d offset e t, ¬ FailedRead c.cache d offset →
        bufCache_Read c.cache d offset = (0, some e, t) → (c.read d offset).filled e = true) := by
  refine ⟨fun s disk offset inv => forgotten_iff inv disk offset, ?_, ?_⟩
  · intro s disk offset inv failed t
    obtain ⟨status, e, key, unheld, count, member, memory, evictable, again⟩ :=
      bufCache_Read_failed_keeps inv failed
    refine ⟨?_, e, key, member, by rw [count, unheld], ?_, by rw [again], by rw [again], ?_, ?_⟩
    · rw [status]
      exact failed.2.2
    · rw [evictable]
      refine Finset.card_erase_add_one ?_
      simp only [unreferenced, Finset.mem_filter, Finset.mem_range]
      exact ⟨key.1, unheld⟩
    · rw [again]
      rfl
    · rw [again]
      exact memory
  · intro memory disk readStatus writeStatus accesses c ran d offset e t ok result
    have start : Transferred bufBase
        (.start (bufCacheInit bufBase memory disk readStatus writeStatus)) :=
      ⟨bufCacheInit_inv bufBase memory disk readStatus writeStatus,
        fun e d o key => absurd key (init_absent _ _ _ _ _ e d o)⟩
    have good : Transferred bufBase c := ran.invariant (Transferred bufBase)
      (fun _ _ _ before step => trackedStep_transferred before step) start
    rcases bufCache_Read_takes good.rep d offset with ⟨x, found, takes⟩ | exhausted
    · rw [result] at found
      cases found
      exact (good.read ok).filled e d offset takes.key
    · rw [result] at exhausted
      cases exhausted

/-- A fresh cache over a disk full of sevens whose first read fails. -/
def faultyDisk : BufState :=
  bufCacheInit 0 (fun _ => 0) (fun _ _ => 7) (fun n => if n = 0 then -1 else 0) (fun _ => 0)

theorem faultyDisk_fails : FailedRead faultyDisk 1 16384 :=
  ⟨fun e => init_absent _ _ _ _ _ e 1 16384, ⟨0, by decide, rfl⟩, by decide⟩

theorem failed_reads_stay_cached_first : ∃ e,
    HasKey (bufCache_Read faultyDisk 1 16384).2.2 e 1 16384 := by
  obtain ⟨_, e, key, _⟩ := (failed_reads_stay_cached 0).2.1 faultyDisk 1 16384
    (bufCacheInit_inv _ _ _ _ _) faultyDisk_fails
  exact ⟨e, key⟩

/-- The read fails, and the second one returns 0 with a byte that the block does not have. -/
theorem failed_read_then_stale :
    let t := (bufCache_Read faultyDisk 1 16384).2.2
    (bufCache_Read faultyDisk 1 16384).1 = -1 ∧ ¬ Forgotten faultyDisk t 1 16384 ∧
    (bufCache_Read t 1 16384).1 = 0 ∧ (bufCache_Read t 1 16384).2.1 = some 0 ∧
    (bufCache_Read t 1 16384).2.2.memory ((t.entry 0).buffer) = 0 ∧ t.disk 1 16384 = 7 := by
  intro t
  refine ⟨by decide +kernel, ?_, by decide +kernel, by decide +kernel, by decide +kernel,
    by decide +kernel⟩
  intro forgotten
  refine forgotten.absent 0 ?_
  unfold HasKey
  decide +kernel

end BoringOs.BufCache
