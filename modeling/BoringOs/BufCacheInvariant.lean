import BoringOs.BufCache
import BoringOs.Lib.Runs

/-! The representation invariant of the buffer cache. -/

namespace BoringOs.BufCache

open ByteMemory Function List

structure RepInv (bufBase : Nat) (s : BufState) : Prop where
  /-- An entry is on `lruList` once when nobody holds it, else not at all. -/
  lru : ∀ e < CACHEENTRIES, s.lruList.count e = if (s.entry e).refCount = 0 then 1 else 0
  lruEntries : ∀ e ∈ s.lruList, e < CACHEENTRIES
  /-- A keyed entry is once in the chain of its offset and in no other chain. -/
  chain : ∀ e < CACHEENTRIES, ∀ h < HASHTABLEENTRIES, (s.hashTable h).count e =
    if (s.entry e).disk ≠ none ∧ (s.entry e).diskOffset % HASHTABLEENTRIES = h then 1 else 0
  chainEntries : ∀ h < HASHTABLEENTRIES, ∀ e ∈ s.hashTable h, e < CACHEENTRIES
  unique : ∀ e < CACHEENTRIES, ∀ other < CACHEENTRIES, (s.entry e).disk ≠ none →
    (s.entry e).disk = (s.entry other).disk →
    (s.entry e).diskOffset = (s.entry other).diskOffset → e = other
  buffers : ∀ e < CACHEENTRIES, (s.entry e).buffer = bufBase + BLOCKSIZE * e
  keyed : ∀ e < CACHEENTRIES, (s.entry e).refCount ≠ 0 → (s.entry e).disk ≠ none

variable {bufBase : Nat} {s t : BufState} {e x : EntryId} {disk : DiskId}

theorem RepInv.of_lists (inv : RepInv bufBase s)
    (entries : t.entry = s.entry) (chains : t.hashTable = s.hashTable)
    (lru : t.lruList = s.lruList) : RepInv bufBase t := by
  constructor
  · rw [entries, lru]; exact inv.lru
  · rw [lru]; exact inv.lruEntries
  · rw [entries, chains]; exact inv.chain
  · rw [chains]; exact inv.chainEntries
  · rw [entries]; exact inv.unique
  · rw [entries]; exact inv.buffers
  · rw [entries]; exact inv.keyed

theorem hash_lt (offset : Nat) : offset % HASHTABLEENTRIES < HASHTABLEENTRIES :=
  Nat.mod_lt _ (by decide)

theorem RepInv.mem_chain (inv : RepInv bufBase s)
    (bound : e < CACHEENTRIES) (key : (s.entry e).disk = some disk) :
    e ∈ s.hashTable ((s.entry e).diskOffset % HASHTABLEENTRIES) := by
  have once := inv.chain e bound _ (hash_lt (s.entry e).diskOffset)
  rw [if_pos ⟨by simp [key], rfl⟩] at once
  exact count_pos_iff.mp (by omega)

theorem RepInv.buffers_apart (inv : RepInv bufBase s)
    {e other : EntryId} (bound : e < CACHEENTRIES) (otherBound : other < CACHEENTRIES)
    (different : e ≠ other) :
    (s.entry e).buffer + BLOCKSIZE ≤ (s.entry other).buffer ∨
      (s.entry other).buffer + BLOCKSIZE ≤ (s.entry e).buffer := by
  rw [inv.buffers e bound, inv.buffers other otherBound]
  rcases Nat.lt_or_gt_of_ne different with less | more
  · left
    have := Nat.mul_le_mul_left BLOCKSIZE less
    rw [Nat.mul_succ] at this
    omega
  · right
    have := Nat.mul_le_mul_left BLOCKSIZE more
    rw [Nat.mul_succ] at this
    omega

theorem matches_iff (e : BufCacheEntry) (disk : DiskId) (offset : Nat) :
    e.matches disk offset = true ↔ e.disk = some disk ∧ e.diskOffset = offset := by
  simp [BufCacheEntry.matches]

def Uncached (s : BufState) (disk : DiskId) (offset : Nat) : Prop :=
  ∀ e < CACHEENTRIES, ¬ ((s.entry e).disk = some disk ∧ (s.entry e).diskOffset = offset)

theorem bufCacheLookup_cases (inv : RepInv bufBase s) (disk : DiskId) (offset : Nat) :
    (∃ e < CACHEENTRIES, (s.entry e).disk = some disk ∧ (s.entry e).diskOffset = offset ∧
      bufCacheLookup s disk offset = (0, some e, retainEntry s e)) ∨
    (Uncached s disk offset ∧ bufCacheLookup s disk offset = (ENOENT, none, s)) := by
  cases found : (s.hashTable (offset % HASHTABLEENTRIES)).find?
      (fun e => (s.entry e).matches disk offset) with
  | some e =>
    left
    have member := mem_of_find?_eq_some found
    have hit : (s.entry e).matches disk offset = true := by simpa using find?_some found
    have key := (matches_iff _ _ _).mp hit
    refine ⟨e, inv.chainEntries _ (hash_lt offset) e member, key.1, key.2, ?_⟩
    simp only [bufCacheLookup, found]
  | none =>
    right
    refine ⟨?_, by simp only [bufCacheLookup, found]⟩
    rintro e bound ⟨sameDisk, sameOffset⟩
    have member := inv.mem_chain bound sameDisk
    rw [sameOffset] at member
    have miss := find?_eq_none.mp found e member
    exact miss ((matches_iff _ _ _).mpr ⟨sameDisk, sameOffset⟩)

section

variable (entry : EntryId → BufCacheEntry)
include entry

@[simp] theorem recount_disk (e x : EntryId) (n : Nat) :
    (recount entry e n x).disk = (entry x).disk := by
  by_cases same : x = e
  · subst x; simp [recount]
  · simp [recount, same]

@[simp] theorem recount_diskOffset (e x : EntryId) (n : Nat) :
    (recount entry e n x).diskOffset = (entry x).diskOffset := by
  by_cases same : x = e
  · subst x; simp [recount]
  · simp [recount, same]

@[simp] theorem recount_buffer (e x : EntryId) (n : Nat) :
    (recount entry e n x).buffer = (entry x).buffer := by
  by_cases same : x = e
  · subst x; simp [recount]
  · simp [recount, same]

@[simp] theorem recount_refCount (e x : EntryId) (n : Nat) :
    (recount entry e n x).refCount = if x = e then n else (entry x).refCount := by
  by_cases same : x = e
  · subst x; simp [recount]
  · simp [recount, same]

end

theorem RepInv.recounted (inv : RepInv bufBase s) {n : Nat} (key : (s.entry e).disk ≠ none)
    (entries : t.entry = recount s.entry e n) (chains : t.hashTable = s.hashTable)
    (lru : ∀ x < CACHEENTRIES, t.lruList.count x =
      if x = e then (if n = 0 then 1 else 0) else s.lruList.count x)
    (members : ∀ x ∈ t.lruList, x < CACHEENTRIES) : RepInv bufBase t := by
  constructor
  · intro x bound
    rw [lru x bound, entries, recount_refCount]
    by_cases same : x = e
    · simp [same]
    · rw [if_neg same, if_neg same]; exact inv.lru x bound
  · exact members
  · rw [entries, chains]
    simpa using inv.chain
  · rw [chains]; exact inv.chainEntries
  · rw [entries]; simpa using inv.unique
  · rw [entries]; simpa using inv.buffers
  · intro x bound
    rw [entries, recount_refCount, recount_disk]
    by_cases same : x = e
    · intro _; rw [same]; exact key
    · rw [if_neg same]; exact inv.keyed x bound

theorem retainEntry_inv (inv : RepInv bufBase s)
    (bound : e < CACHEENTRIES) (key : (s.entry e).disk ≠ none) :
    RepInv bufBase (retainEntry s e) := by
  have count := inv.lru e bound
  refine inv.recounted (t := retainEntry s e) key rfl rfl ?_ ?_
  · intro x _
    by_cases free : (s.entry e).refCount = 0
    · -- the first reference takes the entry off the list
      rw [if_pos free] at count
      by_cases same : x = e
      · simp [retainEntry, free, same, count]
      · simp [retainEntry, free, same]
    · rw [if_neg free] at count
      by_cases same : x = e
      · simp [retainEntry, free, same, count]
      · simp [retainEntry, free, same]
  · intro x member
    simp only [retainEntry] at member
    split at member
    · exact inv.lruEntries x (mem_of_mem_erase member)
    · exact inv.lruEntries x member

theorem release_inv (inv : RepInv bufBase s)
    (bound : e < CACHEENTRIES) (held : (s.entry e).refCount ≠ 0) :
    RepInv bufBase (bufCache_Release s e) := by
  have count := inv.lru e bound
  rw [if_neg held] at count
  refine inv.recounted (t := bufCache_Release s e) (inv.keyed e bound held) rfl rfl ?_ ?_
  · intro x _
    by_cases last : (s.entry e).refCount - 1 = 0
    · by_cases same : x = e
      · simp [bufCache_Release, last, same, count]
      · simp [bufCache_Release, last, same, Ne.symm same]
    · by_cases same : x = e
      · simp [bufCache_Release, last, same, count]
      · simp [bufCache_Release, last, same]
  · intro x member
    simp only [bufCache_Release] at member
    split at member
    · rcases mem_append.mp member with member | member
      · exact inv.lruEntries x member
      · rw [mem_singleton.mp member]; exact bound
    · exact inv.lruEntries x member

@[simp] theorem unhashEntry_entry (s : BufState) (e : EntryId) :
    (unhashEntry s e).entry = s.entry := by
  unfold unhashEntry; split <;> rfl

@[simp] theorem unhashEntry_lruList (s : BufState) (e : EntryId) :
    (unhashEntry s e).lruList = s.lruList := by
  unfold unhashEntry; split <;> rfl

theorem unhashEntry_count (inv : RepInv bufBase s)
    (bound : e < CACHEENTRIES) (rest : List EntryId) (x : EntryId)
    {h : Nat} (hBound : h < HASHTABLEENTRIES) :
    ((unhashEntry { s with lruList := rest } e).hashTable h).count x =
      if x = e then 0 else (s.hashTable h).count x := by
  have chains := inv.chain e bound h hBound
  unfold unhashEntry
  cases key : (s.entry e).disk with
  | none =>
    by_cases same : x = e
    · simpa [same, key] using chains
    · simp [same]
  | some disk =>
    by_cases here : h = (s.entry e).diskOffset % HASHTABLEENTRIES
    · rw [if_pos ⟨by simp [key], here.symm⟩] at chains
      rw [here] at chains ⊢
      by_cases same : x = e
      · simp [same, chains]
      · simp [same]
    · rw [if_neg (fun both => here both.2.symm)] at chains
      by_cases same : x = e
      · simpa [same, key, here] using chains
      · simp [same, here]

theorem unhashEntry_subset (s : BufState) (rest : List EntryId) (e : EntryId) (h : Nat) :
    ∀ x ∈ (unhashEntry { s with lruList := rest } e).hashTable h, x ∈ s.hashTable h := by
  intro x member
  unfold unhashEntry at member
  split at member
  · exact member
  · by_cases here : h = (s.entry e).diskOffset % HASHTABLEENTRIES
    · subst here
      simp only [update_self] at member
      exact mem_of_mem_erase member
    · simpa [here] using member

/-- The state `BufCacheAlloc` leaves when it recycles the first LRU entry. -/
def recycleEntry (s : BufState) (e : EntryId) (rest : List EntryId) (disk : DiskId)
    (offset : Nat) : BufState :=
  rehashEntry (unhashEntry { s with lruList := rest } e) e disk offset

theorem recycleEntry_entry (s : BufState) (e : EntryId) (rest : List EntryId) (disk : DiskId)
    (offset : Nat) : (recycleEntry s e rest disk offset).entry =
      update s.entry e
        { s.entry e with disk := some disk, diskOffset := offset, refCount := 1 } := by
  simp only [recycleEntry, rehashEntry, unhashEntry_entry]

theorem RepInv.lru_head (inv : RepInv bufBase s)
    {rest : List EntryId} (head : s.lruList = e :: rest) :
    e < CACHEENTRIES ∧ (s.entry e).refCount = 0 ∧ rest.count e = 0 := by
  have bound : e < CACHEENTRIES := inv.lruEntries e (by simp [head])
  have count := inv.lru e bound
  rw [head, count_cons_self] at count
  split at count
  · exact ⟨bound, by assumption, by omega⟩
  · omega

theorem recycleEntry_inv (inv : RepInv bufBase s) {rest : List EntryId} (head : s.lruList = e :: rest)
    {offset : Nat} (fresh : Uncached s disk offset) :
    RepInv bufBase (recycleEntry s e rest disk offset) := by
  obtain ⟨bound, _, alone⟩ := inv.lru_head head
  have entries := recycleEntry_entry s e rest disk offset
  constructor
  · intro x xBound
    have others := inv.lru x xBound
    have list : (recycleEntry s e rest disk offset).lruList = rest := by
      simp only [recycleEntry, rehashEntry, unhashEntry_lruList]
    rw [entries, list]
    by_cases same : x = e
    · simp [same, alone]
    · rw [head, count_cons_of_ne (Ne.symm same)] at others
      simpa [same] using others
  · intro x member
    simp only [recycleEntry, rehashEntry, unhashEntry_lruList] at member
    exact inv.lruEntries x (by rw [head]; exact mem_cons_of_mem _ member)
  · intro x xBound h hBound
    have removed := unhashEntry_count inv bound rest x hBound
    have chains := inv.chain x xBound h hBound
    rw [entries]
    by_cases here : h = offset % HASHTABLEENTRIES
    · subst here
      simp only [recycleEntry, rehashEntry, update_self, count_cons, removed]
      by_cases same : x = e
      · simp [same]
      · simpa [same, Ne.symm same] using chains
    · simp only [recycleEntry, rehashEntry, update_of_ne here, removed]
      by_cases same : x = e
      · simp [same, Ne.symm here]
      · simpa [same] using chains
  · intro h hBound x member
    by_cases here : h = offset % HASHTABLEENTRIES
    · subst here
      simp only [recycleEntry, rehashEntry, update_self, mem_cons] at member
      rcases member with same | member
      · rw [same]; exact bound
      · exact inv.chainEntries _ hBound x (unhashEntry_subset s rest e _ x member)
    · simp only [recycleEntry, rehashEntry, update_of_ne here] at member
      exact inv.chainEntries h hBound x (unhashEntry_subset s rest e h x member)
  · intro x xBound y yBound
    rw [entries]
    by_cases xSame : x = e
    · by_cases ySame : y = e
      · intros; rw [xSame, ySame]
      · -- nobody else has the new key
        simp only [xSame, ySame, update_self, ne_eq, not_false_eq_true,
          update_of_ne]
        intro _ sameDisk sameOffset
        exact absurd ⟨sameDisk.symm, sameOffset.symm⟩ (fresh y yBound)
    · by_cases ySame : y = e
      · simp only [xSame, ySame, update_self, ne_eq, not_false_eq_true,
          update_of_ne]
        intro _ sameDisk sameOffset
        exact absurd ⟨sameDisk, sameOffset⟩ (fresh x xBound)
      · simpa [xSame, ySame] using inv.unique x xBound y yBound
  · intro x xBound
    rw [entries]
    by_cases same : x = e
    · subst x; simpa using inv.buffers e bound
    · simpa [same] using inv.buffers x xBound
  · intro x xBound
    rw [entries]
    by_cases same : x = e
    · simp [same]
    · simpa [same] using inv.keyed x xBound

theorem bufCacheAlloc_cases (s : BufState) (disk : DiskId) (offset : Nat) :
    (s.lruList = [] ∧
      bufCacheAlloc s disk offset = (ENOMEM, none, { s with noSpace := s.noSpace + 1 })) ∨
    (∃ e rest, s.lruList = e :: rest ∧
      bufCacheAlloc s disk offset = (0, some e, recycleEntry s e rest disk offset)) := by
  cases list : s.lruList with
  | nil => exact .inl ⟨rfl, by simp only [bufCacheAlloc, list]⟩
  | cons e rest => exact .inr ⟨e, rest, rfl, by simp only [bufCacheAlloc, list, recycleEntry]⟩

theorem diskRead_lists (s : BufState) (disk : DiskId) (buf offset length : Nat) :
    (diskRead s disk buf offset length).2.entry = s.entry ∧
      (diskRead s disk buf offset length).2.hashTable = s.hashTable ∧
      (diskRead s disk buf offset length).2.lruList = s.lruList := by
  unfold diskRead
  dsimp only
  split <;> exact ⟨rfl, rfl, rfl⟩

theorem bufCache_Write_lists (s : BufState) (e : EntryId) :
    (bufCache_Write s e).2.entry = s.entry ∧ (bufCache_Write s e).2.hashTable = s.hashTable ∧
      (bufCache_Write s e).2.lruList = s.lruList := by
  unfold bufCache_Write diskWrite
  split
  · exact ⟨rfl, rfl, rfl⟩
  · dsimp only
    split <;> exact ⟨rfl, rfl, rfl⟩

theorem bufCache_Write_memory (s : BufState) (e : EntryId) :
    (bufCache_Write s e).2.memory = s.memory := by
  unfold bufCache_Write diskWrite
  split
  · rfl
  · dsimp only
    split <;> rfl

section

variable (inv : RepInv bufBase s)
include inv

theorem bufCache_Read_cases (disk : DiskId) (offset : Nat) :
    (∃ e < CACHEENTRIES, (s.entry e).disk = some disk ∧ (s.entry e).diskOffset = offset ∧
      bufCache_Read s disk offset =
        (0, some e, { retainEntry s e with cacheHit := s.cacheHit + 1 })) ∨
    (Uncached s disk offset ∧ s.lruList = [] ∧ bufCache_Read s disk offset =
        (ENOMEM, none, { s with cacheMiss := s.cacheMiss + 1, noSpace := s.noSpace + 1 })) ∨
    (Uncached s disk offset ∧
      ∃ e rest, s.lruList = e :: rest ∧ bufCache_Read s disk offset =
        ((diskRead (recycleEntry { s with cacheMiss := s.cacheMiss + 1 } e rest disk offset) disk
            (s.entry e).buffer offset BLOCKSIZE).1, some e,
          (diskRead (recycleEntry { s with cacheMiss := s.cacheMiss + 1 } e rest disk offset) disk
            (s.entry e).buffer offset BLOCKSIZE).2)) := by
  rcases bufCacheLookup_cases inv disk offset with ⟨e, bound, sameDisk, sameOffset, hit⟩ | ⟨fresh, miss⟩
  · left
    refine ⟨e, bound, sameDisk, sameOffset, ?_⟩
    simp only [bufCache_Read, hit]
    rfl
  · right
    rcases bufCacheAlloc_cases { s with cacheMiss := s.cacheMiss + 1 } disk offset with
      ⟨empty, failed⟩ | ⟨e, rest, head, taken⟩
    · exact .inl ⟨fresh, empty, by simp only [bufCache_Read, miss, failed]⟩
    · refine .inr ⟨fresh, e, rest, head, ?_⟩
      have place : ((recycleEntry { s with cacheMiss := s.cacheMiss + 1 } e rest disk offset).entry
          e).buffer = (s.entry e).buffer := by
        rw [recycleEntry_entry, update_self]
      simp only [bufCache_Read, miss, taken, place]

theorem bufCache_Alloc_cases (disk : DiskId) (offset : Nat) :
    (∃ e < CACHEENTRIES, (s.entry e).disk = some disk ∧ (s.entry e).diskOffset = offset ∧
      bufCache_Alloc s disk offset =
        (0, some e, { retainEntry s e with cacheAlloc := s.cacheAlloc + 1 })) ∨
    (Uncached s disk offset ∧ s.lruList = [] ∧ bufCache_Alloc s disk offset =
        (ENOMEM, none, { s with cacheAlloc := s.cacheAlloc + 1, noSpace := s.noSpace + 1 })) ∨
    (Uncached s disk offset ∧
      ∃ e rest, s.lruList = e :: rest ∧ bufCache_Alloc s disk offset =
        (0, some e, { recycleEntry s e rest disk offset with
          cacheAlloc := (recycleEntry s e rest disk offset).cacheAlloc + 1 })) := by
  rcases bufCacheLookup_cases inv disk offset with ⟨e, bound, sameDisk, sameOffset, hit⟩ | ⟨fresh, miss⟩
  · left
    refine ⟨e, bound, sameDisk, sameOffset, ?_⟩
    simp only [bufCache_Alloc, hit]
    rfl
  · right
    rcases bufCacheAlloc_cases s disk offset with ⟨empty, failed⟩ | ⟨e, rest, head, taken⟩
    · exact .inl ⟨fresh, empty, by simp only [bufCache_Alloc, miss, failed]⟩
    · exact .inr ⟨fresh, e, rest, head, by simp only [bufCache_Alloc, miss, taken]⟩

theorem bufCache_Read_inv
    (disk : DiskId) (offset : Nat) : RepInv bufBase (bufCache_Read s disk offset).2.2 := by
  rcases bufCache_Read_cases inv disk offset with
    ⟨e, bound, key, _, result⟩ | ⟨_, _, result⟩ | ⟨fresh, e, rest, head, result⟩
  · rw [result]
    exact (retainEntry_inv inv bound (by simp [key])).of_lists rfl rfl rfl
  · rw [result]
    exact inv.of_lists rfl rfl rfl
  · rw [result]
    have counted : RepInv bufBase { s with cacheMiss := s.cacheMiss + 1 } :=
      inv.of_lists rfl rfl rfl
    obtain ⟨entries, chains, lru⟩ := diskRead_lists
      (recycleEntry { s with cacheMiss := s.cacheMiss + 1 } e rest disk offset) disk
      (s.entry e).buffer offset BLOCKSIZE
    exact (recycleEntry_inv counted head fresh).of_lists entries chains lru

theorem bufCache_Alloc_inv
    (disk : DiskId) (offset : Nat) : RepInv bufBase (bufCache_Alloc s disk offset).2.2 := by
  rcases bufCache_Alloc_cases inv disk offset with
    ⟨e, bound, key, _, result⟩ | ⟨_, _, result⟩ | ⟨fresh, e, rest, head, result⟩
  · rw [result]
    exact (retainEntry_inv inv bound (by simp [key])).of_lists rfl rfl rfl
  · rw [result]
    exact inv.of_lists rfl rfl rfl
  · rw [result]
    exact (recycleEntry_inv inv head fresh).of_lists rfl rfl rfl

end

theorem bufCacheInit_inv (bufBase : Nat) (memory : Memory) (disk : DiskId → Memory)
    (readStatus writeStatus : Nat → Int) :
    RepInv bufBase (bufCacheInit bufBase memory disk readStatus writeStatus) := by
  constructor
  · intro e bound
    simp only [bufCacheInit, ↓reduceIte]
    exact count_eq_one_of_mem nodup_range (mem_range.mpr bound)
  · intro e member
    simp only [bufCacheInit] at member
    exact mem_range.mp member
  · intro e _ h _
    simp [bufCacheInit]
  · intro h _ e member
    simp [bufCacheInit] at member
  · intro e _ other _ key
    simp [bufCacheInit] at key
  · intro e _
    rfl
  · intro e _ held
    simp [bufCacheInit] at held

def SameKey (before after : BufCacheEntry) : Prop :=
  after.disk = before.disk ∧ after.diskOffset = before.diskOffset

theorem recycleEntry_keeps (inv : RepInv bufBase s)
    {rest : List EntryId} (head : s.lruList = e :: rest) (disk : DiskId)
    (offset : Nat) (held : (s.entry x).refCount ≠ 0) :
    SameKey (s.entry x) ((recycleEntry s e rest disk offset).entry x) := by
  obtain ⟨_, free, _⟩ := inv.lru_head head
  have other : x ≠ e := by
    intro same
    exact held (same ▸ free)
  rw [recycleEntry_entry, update_of_ne other]
  exact ⟨rfl, rfl⟩

theorem retainEntry_keeps (s : BufState) (e x : EntryId) :
    SameKey (s.entry x) ((retainEntry s e).entry x) := by
  simp [SameKey, retainEntry]

/-- One call of the cache interface, with the caller's choice of arguments. -/
inductive Call where
  | alloc (disk : DiskId) (offset : Nat)
  | read (disk : DiskId) (offset : Nat)
  | release (e : EntryId)
  deriving DecidableEq

inductive Step : BufState → Call → BufState → Prop where
  | alloc (s : BufState) (disk : DiskId) (offset : Nat) :
      Step s (.alloc disk offset) (bufCache_Alloc s disk offset).2.2
  | read (s : BufState) (disk : DiskId) (offset : Nat) :
      Step s (.read disk offset) (bufCache_Read s disk offset).2.2
  | release (s : BufState) (e : EntryId) (bound : e < CACHEENTRIES)
      (held : (s.entry e).refCount ≠ 0) :
      Step s (.release e) (bufCache_Release s e)

variable {call : Call}

theorem step_inv (inv : RepInv bufBase s) (step : Step s call t) : RepInv bufBase t := by
  cases step with
  | alloc disk offset => exact bufCache_Alloc_inv inv disk offset
  | read disk offset => exact bufCache_Read_inv inv disk offset
  | release e bound held => exact release_inv inv bound held

theorem step_keeps_held (inv : RepInv bufBase s)
    (step : Step s call t) (held : (s.entry x).refCount ≠ 0) : SameKey (s.entry x) (t.entry x) := by
  cases step with
  | alloc disk offset =>
    rcases bufCache_Alloc_cases inv disk offset with
      ⟨e, _, _, _, result⟩ | ⟨_, _, result⟩ | ⟨_, e, rest, head, result⟩
    · rw [result]; exact retainEntry_keeps s e x
    · rw [result]; exact ⟨rfl, rfl⟩
    · rw [result]; exact recycleEntry_keeps inv head disk offset held
  | read disk offset =>
    rcases bufCache_Read_cases inv disk offset with
      ⟨e, _, _, _, result⟩ | ⟨_, _, result⟩ | ⟨_, e, rest, head, result⟩
    · rw [result]; exact retainEntry_keeps s e x
    · rw [result]; exact ⟨rfl, rfl⟩
    · rw [result, (diskRead_lists _ disk (s.entry e).buffer offset BLOCKSIZE).1]
      have counted : RepInv bufBase { s with cacheMiss := s.cacheMiss + 1 } :=
        inv.of_lists rfl rfl rfl
      exact recycleEntry_keeps counted head disk offset held
  | release e bound _ => simp [SameKey, bufCache_Release]

/-- From `BufCache_Init`, whatever calls were made: the lists agree with the entries,
the buffers are those of the start and pairwise disjoint, and no further call gives a
held entry another key or takes it out of its chain. -/
theorem bufcache_representation (bufBase : Nat) (memory : Memory) (disk : DiskId → Memory)
    (readStatus writeStatus : Nat → Int) (calls : List Call) (s : BufState)
    (ran : Runs.Run Step (bufCacheInit bufBase memory disk readStatus writeStatus) calls s) :
    RepInv bufBase s ∧
    (∀ e < CACHEENTRIES, ∀ other < CACHEENTRIES, e ≠ other →
      (s.entry e).buffer + BLOCKSIZE ≤ (s.entry other).buffer ∨
        (s.entry other).buffer + BLOCKSIZE ≤ (s.entry e).buffer) ∧
    (∀ call t, Step s call t → ∀ e < CACHEENTRIES, (s.entry e).refCount ≠ 0 →
      SameKey (s.entry e) (t.entry e) ∧
        e ∈ t.hashTable ((s.entry e).diskOffset % HASHTABLEENTRIES)) := by
  have inv : RepInv bufBase s := ran.invariant (RepInv bufBase)
    (fun _ _ _ before step => step_inv before step)
    (bufCacheInit_inv bufBase memory disk readStatus writeStatus)
  refine ⟨inv, ?_, ?_⟩
  · intro e bound other otherBound different
    exact inv.buffers_apart bound otherBound different
  · intro call t step e bound held
    have same := step_keeps_held inv step held
    refine ⟨same, ?_⟩
    obtain ⟨owner, key⟩ := Option.ne_none_iff_exists'.mp (inv.keyed e bound held)
    have member := (step_inv inv step).mem_chain bound (same.1.trans key)
    rwa [same.2] at member

theorem bufcache_representation_read_release :
    let start := bufCacheInit 0 (fun _ => 0) (fun _ _ => 7) (fun _ => 0) (fun _ => 0)
    RepInv 0 (bufCache_Release (bufCache_Read start 1 16384).2.2 0) := by
  intro start
  have held : ((bufCache_Read start 1 16384).2.2.entry 0).refCount ≠ 0 := by
    decide +kernel
  have ran : Runs.Run Step start [.read 1 16384, .release 0]
      (bufCache_Release (bufCache_Read start 1 16384).2.2 0) :=
    .cons (.read start 1 16384) (.single (.release _ 0 (by decide +kernel) held))
  exact (bufcache_representation 0 _ _ _ _ _ _ ran).1

end BoringOs.BufCache
