import BoringOs.BufCacheInvariant

/-! The contents of a block, which are those of its buffer or else of the disk, and what each call
does to them. -/

namespace BoringOs.BufCache

open ByteMemory Function

/-- Byte `index` of the block `(disk, offset)`. -/
def content (s : BufState) (disk : DiskId) (offset index : Nat) : UInt8 :=
  match (s.hashTable (offset % HASHTABLEENTRIES)).find?
      (fun e => (s.entry e).matches disk offset) with
  | some e => s.memory ((s.entry e).buffer + index)
  | none => s.disk disk (offset + index)

def HasKey (s : BufState) (e : EntryId) (disk : DiskId) (offset : Nat) : Prop :=
  e < CACHEENTRIES ∧ (s.entry e).disk = some disk ∧ (s.entry e).diskOffset = offset

variable {s t : BufState} {offset bufBase index : Nat} {e : EntryId} {disk : DiskId}

/-- The representation invariant, with block-aligned keys and with the unreferenced
buffer of every trusted block equal to that block on disk. A block whose reads may fail
cannot be trusted: `BufCache_Read` leaves a buffer it could not fill in the cache. -/
structure Coherent (bufBase : Nat) (trusted : DiskId → Nat → Prop) (s : BufState) : Prop where
  rep : RepInv bufBase s
  aligned : ∀ e disk offset, HasKey s e disk offset → offset % BLOCKSIZE = 0
  clean : ∀ e disk offset, trusted disk offset → HasKey s e disk offset →
    (s.entry e).refCount = 0 →
    ∀ index < BLOCKSIZE, s.memory ((s.entry e).buffer + index) = s.disk disk (offset + index)

theorem HasKey.inj {d : DiskId} {o : Nat} (key : HasKey s e d o) (other : HasKey s e disk offset) :
    d = disk ∧ o = offset :=
  ⟨Option.some.inj (key.2.1.symm.trans other.2.1), key.2.2.symm.trans other.2.2⟩

section

variable (inv : RepInv bufBase s)
include inv

theorem HasKey.unique {e other : EntryId} (key : HasKey s e disk offset)
    (otherKey : HasKey s other disk offset) : e = other :=
  inv.unique e key.1 other otherKey.1 (by simp [key.2.1])
    (key.2.1.trans otherKey.2.1.symm) (key.2.2.trans otherKey.2.2.symm)

theorem RepInv.unmoved {before after : Memory} (bound : e < CACHEENTRIES)
    (others : ∀ address, address < (s.entry e).buffer ∨ (s.entry e).buffer + BLOCKSIZE ≤ address →
      after address = before address) :
    ∀ x < CACHEENTRIES, x ≠ e → ∀ index < BLOCKSIZE,
      after ((s.entry x).buffer + index) = before ((s.entry x).buffer + index) := by
  intro x xBound other index inside
  have apart := inv.buffers_apart xBound bound other
  exact others _ (by omega)

theorem content_cached (key : HasKey s e disk offset) (index : Nat) :
    content s disk offset index = s.memory ((s.entry e).buffer + index) := by
  rcases bufCacheLookup_cases inv disk offset with ⟨x, bound, sameDisk, sameOffset, hit⟩ | ⟨fresh, _⟩
  · have same : x = e := HasKey.unique inv ⟨bound, sameDisk, sameOffset⟩ key
    unfold bufCacheLookup at hit
    unfold content
    cases matched : (s.hashTable (offset % HASHTABLEENTRIES)).find?
        (fun e => (s.entry e).matches disk offset) with
    | some found =>
      simp only [matched, Prod.mk.injEq, Option.some.injEq] at hit
      rw [hit.2.1, same]
    | none => simp [matched] at hit
  · exact absurd ⟨key.2.1, key.2.2⟩ (fresh e key.1)

theorem content_uncached (absent : ∀ e, ¬ HasKey s e disk offset) (index : Nat) :
    content s disk offset index = s.disk disk (offset + index) := by
  rcases bufCacheLookup_cases inv disk offset with ⟨x, bound, sameDisk, sameOffset, _⟩ | ⟨_, miss⟩
  · exact absurd ⟨bound, sameDisk, sameOffset⟩ (absent x)
  · unfold bufCacheLookup at miss
    unfold content
    cases matched : (s.hashTable (offset % HASHTABLEENTRIES)).find?
        (fun e => (s.entry e).matches disk offset) with
    | some found => simp [matched] at miss
    | none => rfl

theorem content_congr (after : RepInv bufBase t)
    (keys : ∀ e, HasKey t e disk offset ↔ HasKey s e disk offset)
    (buffers : ∀ e, HasKey s e disk offset →
      t.memory ((t.entry e).buffer + index) = s.memory ((s.entry e).buffer + index))
    (disks : t.disk disk (offset + index) = s.disk disk (offset + index)) :
    content t disk offset index = content s disk offset index := by
  by_cases cached : ∃ e, HasKey s e disk offset
  · obtain ⟨e, key⟩ := cached
    rw [content_cached inv key, content_cached after ((keys e).mpr key), buffers e key]
  · have absent : ∀ e, ¬ HasKey s e disk offset := fun e key => cached ⟨e, key⟩
    rw [content_uncached inv absent,
      content_uncached after (fun e key => absent e ((keys e).mp key)), disks]

end

theorem aligned_apart {left right : Nat} (leftAligned : left % BLOCKSIZE = 0)
    (rightAligned : right % BLOCKSIZE = 0) (different : left ≠ right) :
    left + BLOCKSIZE ≤ right ∨ right + BLOCKSIZE ≤ left := by
  unfold BLOCKSIZE at *
  omega

/-- `t` is `s` after one more reference, to the block `(disk, offset)` in entry `e`.
Held entries keep their keys and their bytes; the disks are not written. -/
structure Takes (s t : BufState) (e : EntryId) (disk : DiskId) (offset : Nat) : Prop where
  key : HasKey t e disk offset
  counts : ∀ x, (t.entry x).refCount = (s.entry x).refCount + if x = e then 1 else 0
  keys : ∀ x, (s.entry x).refCount ≠ 0 → SameKey (s.entry x) (t.entry x)
  buffers : ∀ x, (t.entry x).buffer = (s.entry x).buffer
  memory : ∀ x < CACHEENTRIES, (s.entry x).refCount ≠ 0 → ∀ index < BLOCKSIZE,
    t.memory ((s.entry x).buffer + index) = s.memory ((s.entry x).buffer + index)
  elsewhere : ∀ address, address < (s.entry e).buffer ∨ (s.entry e).buffer + BLOCKSIZE ≤ address →
    t.memory address = s.memory address
  disks : t.disk = s.disk
  writes : t.writes = s.writes
  noSpace : t.noSpace = s.noSpace
  writeStatus : t.writeStatus = s.writeStatus
  readStatus : (∀ n, s.readStatus n = 0) → ∀ n, t.readStatus n = 0

theorem retainEntry_takes
    (key : HasKey s e disk offset) : Takes s (retainEntry s e) e disk offset where
  key := by simpa [HasKey, retainEntry] using key
  counts x := by
    by_cases same : x = e
    · simp [retainEntry, same]
    · simp [retainEntry, same]
  keys x _ := retainEntry_keeps s e x
  buffers x := by simp [retainEntry]
  memory _ _ _ _ _ := rfl
  elsewhere _ _ := rfl
  disks := rfl
  writes := rfl
  noSpace := rfl
  writeStatus := rfl
  readStatus ok := ok

theorem recycleEntry_frame (s : BufState) (e : EntryId) (rest : List EntryId) (disk : DiskId)
    (offset : Nat) :
    (recycleEntry s e rest disk offset).memory = s.memory ∧
    (recycleEntry s e rest disk offset).disk = s.disk ∧
    (recycleEntry s e rest disk offset).writes = s.writes ∧
    (recycleEntry s e rest disk offset).noSpace = s.noSpace ∧
    (recycleEntry s e rest disk offset).writeStatus = s.writeStatus ∧
    (recycleEntry s e rest disk offset).readStatus = s.readStatus := by
  unfold recycleEntry rehashEntry unhashEntry
  split <;> exact ⟨rfl, rfl, rfl, rfl, rfl, rfl⟩

theorem recycleEntry_takes (inv : RepInv bufBase s)
    {rest : List EntryId} (head : s.lruList = e :: rest) (disk : DiskId)
    (offset : Nat) : Takes s (recycleEntry s e rest disk offset) e disk offset := by
  obtain ⟨bound, free, _⟩ := inv.lru_head head
  obtain ⟨memory, disks, writes, noSpace, writeStatus, readStatus⟩ :=
    recycleEntry_frame s e rest disk offset
  have entries := recycleEntry_entry s e rest disk offset
  constructor
  · rw [HasKey, entries, update_self]
    exact ⟨bound, rfl, rfl⟩
  · intro x
    rw [entries]
    by_cases same : x = e
    · simp [same, free]
    · simp [same]
  · intro x held
    exact recycleEntry_keeps inv head disk offset held
  · intro x
    rw [entries]
    by_cases same : x = e
    · simp [same]
    · simp [same]
  · intro _ _ _ _ _
    rw [memory]
  · intro _ _
    rw [memory]
  · exact disks
  · exact writes
  · exact noSpace
  · exact writeStatus
  · rw [readStatus]
    exact id

theorem diskRead_frame (s : BufState) (disk : DiskId) (buf offset length : Nat) :
    (diskRead s disk buf offset length).2.disk = s.disk ∧
    (diskRead s disk buf offset length).2.writes = s.writes ∧
    (diskRead s disk buf offset length).2.noSpace = s.noSpace ∧
    (diskRead s disk buf offset length).2.writeStatus = s.writeStatus ∧
    (∀ n, (diskRead s disk buf offset length).2.readStatus n = s.readStatus (n + 1)) ∧
    (∀ address, address < buf ∨ buf + length ≤ address →
      (diskRead s disk buf offset length).2.memory address = s.memory address) := by
  unfold diskRead
  dsimp only
  split
  · refine ⟨rfl, rfl, rfl, rfl, fun _ => rfl, ?_⟩
    intro address outside
    exact copyBytes_outside _ _ _ _ _ _ outside
  · exact ⟨rfl, rfl, rfl, rfl, fun _ => rfl, fun _ _ => rfl⟩

theorem diskRead_fills (s : BufState) (disk : DiskId) (buf offset length index : Nat)
    (ok : s.readStatus 0 = 0) (inside : index < length) :
    (diskRead s disk buf offset length).1 = 0 ∧
    (diskRead s disk buf offset length).2.memory (buf + index) = s.disk disk (offset + index) := by
  unfold diskRead
  simp only [ok, ↓reduceIte, true_and]
  exact copyBytes_offset _ _ _ _ _ _ inside

theorem diskRead_takes (inv : RepInv bufBase s) (free : (s.entry e).refCount = 0)
    (takes : Takes s t e disk offset) :
    Takes s (diskRead t disk (s.entry e).buffer offset BLOCKSIZE).2 e disk offset := by
  have lists := diskRead_lists t disk (s.entry e).buffer offset BLOCKSIZE
  obtain ⟨disks, writes, noSpace, writeStatus, readStatus, memory⟩ :=
    diskRead_frame t disk (s.entry e).buffer offset BLOCKSIZE
  constructor
  · simpa only [HasKey, lists.1] using takes.key
  · intro x; rw [lists.1]; exact takes.counts x
  · intro x held; rw [lists.1]; exact takes.keys x held
  · intro x; rw [lists.1]; exact takes.buffers x
  · intro x bound held index inside
    have other : x ≠ e := by
      intro same
      exact held (same ▸ free)
    rw [← takes.memory x bound held index inside]
    exact inv.unmoved takes.key.1 memory x bound other index inside
  · intro address outside
    exact (memory address outside).trans (takes.elsewhere address outside)
  · exact disks.trans takes.disks
  · exact writes.trans takes.writes
  · exact noSpace.trans takes.noSpace
  · exact writeStatus.trans takes.writeStatus
  · intro ok n
    exact (readStatus n).trans (takes.readStatus ok (n + 1))

theorem bufCache_Read_takes (inv : RepInv bufBase s) (disk : DiskId) (offset : Nat) :
    (∃ e, (bufCache_Read s disk offset).2.1 = some e ∧
      Takes s (bufCache_Read s disk offset).2.2 e disk offset) ∨
    bufCache_Read s disk offset =
      (ENOMEM, none, { s with cacheMiss := s.cacheMiss + 1, noSpace := s.noSpace + 1 }) := by
  rcases bufCache_Read_cases inv disk offset with
    ⟨e, bound, sameDisk, sameOffset, result⟩ | ⟨_, _, result⟩ | ⟨_, e, rest, head, result⟩
  · left
    rw [result]
    have takes := retainEntry_takes ⟨bound, sameDisk, sameOffset⟩
    exact ⟨e, rfl, { takes with }⟩
  · exact .inr result
  · left
    rw [result]
    have counted : RepInv bufBase { s with cacheMiss := s.cacheMiss + 1 } :=
      inv.of_lists rfl rfl rfl
    obtain ⟨_, free, _⟩ := inv.lru_head head
    have takes := diskRead_takes counted free (recycleEntry_takes counted head disk offset)
    exact ⟨e, rfl, { takes with }⟩

theorem bufCache_Alloc_takes (inv : RepInv bufBase s) (disk : DiskId) (offset : Nat) :
    (∃ e, (bufCache_Alloc s disk offset).2.1 = some e ∧
      Takes s (bufCache_Alloc s disk offset).2.2 e disk offset) ∨
    bufCache_Alloc s disk offset =
      (ENOMEM, none, { s with cacheAlloc := s.cacheAlloc + 1, noSpace := s.noSpace + 1 }) := by
  rcases bufCache_Alloc_cases inv disk offset with
    ⟨e, bound, sameDisk, sameOffset, result⟩ | ⟨_, _, result⟩ | ⟨_, e, rest, head, result⟩
  · left
    rw [result]
    have takes := retainEntry_takes ⟨bound, sameDisk, sameOffset⟩
    exact ⟨e, rfl, { takes with }⟩
  · exact .inr result
  · left
    rw [result]
    have takes := recycleEntry_takes inv head disk offset
    exact ⟨e, rfl, { takes with }⟩

/-- Every transfer succeeds, so every block can be trusted. -/
def everyBlock (_ : DiskId) (_ : Nat) : Prop := True

variable {bufBase : Nat} {trusted : DiskId → Nat → Prop}

section

variable (coherent : Coherent bufBase trusted s)
include coherent

theorem rekey_content (bound : e < CACHEENTRIES) (free : (s.entry e).refCount = 0)
    (aligned : offset % BLOCKSIZE = 0) (after : RepInv bufBase t)
    (entries : t.entry = update s.entry e
      { s.entry e with disk := some disk, diskOffset := offset, refCount := 1 })
    (others : ∀ address, address < (s.entry e).buffer ∨
      (s.entry e).buffer + BLOCKSIZE ≤ address → t.memory address = s.memory address)
    (disks : t.disk = s.disk) :
    Coherent bufBase trusted t ∧ HasKey t e disk offset ∧
    ∀ d o, trusted d o → ¬ (d = disk ∧ o = offset) → ∀ index < BLOCKSIZE,
      content t d o index = content s d o index := by
  have inv := coherent.rep
  have newKey : HasKey t e disk offset := by
    rw [HasKey, entries, update_self]
    exact ⟨bound, rfl, rfl⟩
  have oldKeys : ∀ x d o, x ≠ e → (HasKey t x d o ↔ HasKey s x d o) := by
    intro x d o other
    rw [HasKey, HasKey, entries, update_of_ne other]
  have unmoved := inv.unmoved bound others
  refine ⟨⟨after, ?_, ?_⟩, newKey, ?_⟩
  · intro x d o key
    by_cases same : x = e
    · subst x
      rw [← key.2.2, newKey.2.2]
      exact aligned
    · exact coherent.aligned x d o ((oldKeys x d o same).mp key)
  · intro x d o trust key unreferenced index inside
    by_cases same : x = e
    · rw [entries, same, update_self] at unreferenced
      simp at unreferenced
    · rw [entries, update_of_ne same] at unreferenced ⊢
      rw [unmoved x key.1 same index inside, disks]
      exact coherent.clean x d o trust ((oldKeys x d o same).mp key) unreferenced index inside
  · intro d o trust different index inside
    by_cases evicted : HasKey s e d o
    · -- the block that loses its buffer is read from the disk again
      have absent : ∀ x, ¬ HasKey t x d o := by
        intro x key
        by_cases same : x = e
        · subst x
          exact different (key.inj newKey)
        · exact same (HasKey.unique inv ((oldKeys x d o same).mp key) evicted)
      rw [content_uncached after absent, content_cached inv evicted, disks]
      exact (coherent.clean e d o trust evicted free index inside).symm
    · apply content_congr inv after
      · intro x
        by_cases same : x = e
        · subst x
          constructor
          · intro key
            exact absurd (key.inj newKey) different
          · intro key
            exact absurd key evicted
        · exact oldKeys x d o same
      · intro x key
        have other : x ≠ e := by
          intro same
          exact evicted (same ▸ key)
        rw [entries, update_of_ne other]
        exact unmoved x key.1 other index inside
      · rw [disks]

theorem retainEntry_content (key : HasKey s e disk offset) :
    Coherent bufBase trusted (retainEntry s e) ∧
    ∀ d o, ∀ index < BLOCKSIZE, content (retainEntry s e) d o index = content s d o index := by
  have inv := coherent.rep
  have after := retainEntry_inv inv key.1 (by simp [key.2.1])
  have keys : ∀ x d o, HasKey (retainEntry s e) x d o ↔ HasKey s x d o := by
    intro x d o
    simp [HasKey, retainEntry]
  refine ⟨⟨after, ?_, ?_⟩, ?_⟩
  · intro x d o xKey
    exact coherent.aligned x d o ((keys x d o).mp xKey)
  · intro x d o trust xKey free index inside
    have before := coherent.clean x d o trust ((keys x d o).mp xKey)
    simp only [retainEntry, recount_refCount, recount_buffer] at free ⊢
    split at free
    · omega
    · exact before free index inside
  · intro d o index _
    refine content_congr inv after (fun x => keys x d o) ?_ rfl
    intro x _
    simp [retainEntry]

theorem bufCache_Read_content (disk : DiskId) (offset : Nat) (aligned : offset % BLOCKSIZE = 0)
    (ok : trusted disk offset → s.readStatus 0 = 0 ∨ ∃ e, HasKey s e disk offset) :
    Coherent bufBase trusted (bufCache_Read s disk offset).2.2 ∧
    (∀ d o, trusted d o → ∀ index < BLOCKSIZE,
      content (bufCache_Read s disk offset).2.2 d o index = content s d o index) ∧
    (s.readStatus 0 = 0 → ∀ e, (bufCache_Read s disk offset).2.1 = some e →
      (bufCache_Read s disk offset).1 = 0) := by
  have inv := coherent.rep
  have after := bufCache_Read_inv inv disk offset
  rcases bufCache_Read_cases inv disk offset with
    ⟨e, bound, sameDisk, sameOffset, result⟩ | ⟨_, _, result⟩ | ⟨fresh, e, rest, head, result⟩
  · rw [result] at after ⊢
    have same := retainEntry_content coherent ⟨bound, sameDisk, sameOffset⟩
    exact ⟨⟨after, same.1.aligned, same.1.clean⟩, fun d o _ => same.2 d o, fun _ _ _ => rfl⟩
  · rw [result] at after ⊢
    refine ⟨⟨after, coherent.aligned, coherent.clean⟩, ?_, ?_⟩
    · intro d o _ index inside
      exact content_congr inv after (fun x => Iff.rfl) (fun _ _ => rfl) rfl
    · intro _ e impossible
      simp at impossible
  · rw [result] at after ⊢
    obtain ⟨bound, free, _⟩ := inv.lru_head head
    obtain ⟨memory, disks, _, _, _, statuses⟩ :=
      recycleEntry_frame { s with cacheMiss := s.cacheMiss + 1 } e rest disk offset
    have entries := recycleEntry_entry { s with cacheMiss := s.cacheMiss + 1 } e rest disk offset
    generalize recycleEntry { s with cacheMiss := s.cacheMiss + 1 } e rest disk offset = r at *
    have lists := diskRead_lists r disk (s.entry e).buffer offset BLOCKSIZE
    obtain ⟨readDisks, _, _, _, _, readMemory⟩ :=
      diskRead_frame r disk (s.entry e).buffer offset BLOCKSIZE
    have pending : s.readStatus 0 = 0 → r.readStatus 0 = 0 := by rw [statuses]; exact id
    obtain ⟨coherentAfter, newKey, others⟩ := rekey_content coherent bound free aligned after
      (lists.1.trans entries)
      (fun address outside => (readMemory address outside).trans (by rw [memory]))
      (readDisks.trans disks)
    refine ⟨coherentAfter, ?_, ?_⟩
    · intro d o trust index inside
      by_cases same : d = disk ∧ o = offset
      · obtain ⟨rfl, rfl⟩ := same
        have absent : ∀ x, ¬ HasKey s x d o := fun x key => fresh x key.1 key.2
        have transferred : s.readStatus 0 = 0 := by
          rcases ok trust with status | ⟨x, key⟩
          · exact status
          · exact absurd key (absent x)
        have place : ((diskRead r d (s.entry e).buffer o BLOCKSIZE).2.entry e).buffer =
            (s.entry e).buffer := by
          rw [lists.1, entries, update_self]
        rw [content_cached after newKey, content_uncached inv absent, place,
          (diskRead_fills r d (s.entry e).buffer o BLOCKSIZE index (pending transferred) inside).2, disks]
      · exact others d o trust same index inside
    · intro transferred _ _
      exact (diskRead_fills r disk (s.entry e).buffer offset BLOCKSIZE 0 (pending transferred)
        (by decide)).1

theorem bufCache_Alloc_content (disk : DiskId) (offset : Nat) (aligned : offset % BLOCKSIZE = 0) :
    Coherent bufBase trusted (bufCache_Alloc s disk offset).2.2 ∧
    (∀ d o, trusted d o → (¬ (d = disk ∧ o = offset) ∨ ∃ e, HasKey s e disk offset) → ∀ index < BLOCKSIZE,
      content (bufCache_Alloc s disk offset).2.2 d o index = content s d o index) := by
  have inv := coherent.rep
  have after := bufCache_Alloc_inv inv disk offset
  rcases bufCache_Alloc_cases inv disk offset with
    ⟨e, bound, sameDisk, sameOffset, result⟩ | ⟨_, _, result⟩ | ⟨fresh, e, rest, head, result⟩
  · rw [result] at after ⊢
    have same := retainEntry_content coherent ⟨bound, sameDisk, sameOffset⟩
    exact ⟨⟨after, same.1.aligned, same.1.clean⟩, fun d o _ _ => same.2 d o⟩
  · rw [result] at after ⊢
    exact ⟨⟨after, coherent.aligned, coherent.clean⟩, fun d o _ _ index _ =>
      content_congr inv after (fun x => Iff.rfl) (fun _ _ => rfl) rfl⟩
  · rw [result] at after ⊢
    obtain ⟨bound, free, _⟩ := inv.lru_head head
    obtain ⟨memory, disks, _⟩ := recycleEntry_frame s e rest disk offset
    have entries := recycleEntry_entry s e rest disk offset
    obtain ⟨coherentAfter, _, others⟩ := rekey_content coherent bound free aligned after
      entries (fun address _ => by rw [← memory]) disks
    refine ⟨coherentAfter, ?_⟩
    intro d o trust choice
    rcases choice with different | ⟨x, key⟩
    · exact others d o trust different
    · exact absurd key.2 (fresh x key.1)

theorem bufCache_Release_content (bound : e < CACHEENTRIES) (held : (s.entry e).refCount ≠ 0)
    (written : (s.entry e).refCount = 1 → ∀ disk offset, trusted disk offset →
      HasKey s e disk offset → ∀ index < BLOCKSIZE,
        s.memory ((s.entry e).buffer + index) = s.disk disk (offset + index)) :
    Coherent bufBase trusted (bufCache_Release s e) ∧
    ∀ d o index, content (bufCache_Release s e) d o index = content s d o index := by
  have inv := coherent.rep
  have after := release_inv inv bound held
  have keys : ∀ x d o, HasKey (bufCache_Release s e) x d o ↔ HasKey s x d o := by
    intro x d o
    simp [HasKey, bufCache_Release]
  refine ⟨⟨after, ?_, ?_⟩, ?_⟩
  · intro x d o key
    exact coherent.aligned x d o ((keys x d o).mp key)
  · intro x d o trust key free index inside
    simp only [bufCache_Release, recount_refCount, recount_buffer] at free ⊢
    split at free
    · rename_i same
      subst x
      exact written (by omega) d o trust ((keys e d o).mp key) index inside
    · exact coherent.clean x d o trust ((keys x d o).mp key) free index inside
  · intro d o index
    refine content_congr inv after (fun x => keys x d o) ?_ rfl
    intro x _
    simp [bufCache_Release]

theorem modify_content (key : HasKey s e disk offset) (held : (s.entry e).refCount ≠ 0)
    (entries : t.entry = s.entry) (chains : t.hashTable = s.hashTable)
    (lru : t.lruList = s.lruList) (disks : t.disk = s.disk)
    (others : ∀ address, address < (s.entry e).buffer ∨
      (s.entry e).buffer + BLOCKSIZE ≤ address → t.memory address = s.memory address) :
    Coherent bufBase trusted t ∧
    (∀ index, content t disk offset index = t.memory ((s.entry e).buffer + index)) ∧
    ∀ d o, ¬ (d = disk ∧ o = offset) → ∀ index < BLOCKSIZE,
      content t d o index = content s d o index := by
  have inv := coherent.rep
  have after : RepInv bufBase t := inv.of_lists entries chains lru
  have keys : ∀ x d o, HasKey t x d o ↔ HasKey s x d o := by
    intro x d o
    rw [HasKey, HasKey, entries]
  have unmoved := inv.unmoved key.1 others
  refine ⟨⟨after, ?_, ?_⟩, ?_, ?_⟩
  · intro x d o xKey
    exact coherent.aligned x d o ((keys x d o).mp xKey)
  · intro x d o trust xKey free index inside
    rw [entries] at free ⊢
    have other : x ≠ e := by
      intro same
      exact held (same ▸ free)
    rw [unmoved x xKey.1 other index inside, disks]
    exact coherent.clean x d o trust ((keys x d o).mp xKey) free index inside
  · intro index
    rw [content_cached after ((keys e disk offset).mpr key), entries]
  · intro d o different index inside
    refine content_congr inv after (fun x => keys x d o) ?_ (by rw [disks])
    intro x xKey
    have other : x ≠ e := by
      intro same
      subst x
      exact different (xKey.inj key)
    rw [entries]
    exact unmoved x xKey.1 other index inside

end

def writtenBack (s : BufState) (e : EntryId) (disk : DiskId) (offset : Nat) : BufState :=
  { s with
    writeStatus := fun n => s.writeStatus (n + 1)
    disk := Function.update s.disk disk
      (copyBytes (s.disk disk) offset s.memory (s.entry e).buffer BLOCKSIZE)
    writes := s.writes ++ [⟨disk, offset, fun index => s.memory ((s.entry e).buffer + index)⟩] }

theorem bufCache_Write_eq (key : HasKey s e disk offset) (ok : s.writeStatus 0 = 0) :
    bufCache_Write s e = (0, writtenBack s e disk offset) := by
  simp only [bufCache_Write, key.2.1, diskWrite, ok, ↓reduceIte, key.2.2, writtenBack]

theorem writtenBack_disk (s : BufState) (e : EntryId) (disk : DiskId) (offset index : Nat)
    (inside : index < BLOCKSIZE) : (writtenBack s e disk offset).disk disk (offset + index) =
      s.memory ((s.entry e).buffer + index) := by
  simp only [writtenBack, update_self]
  exact copyBytes_offset _ _ _ _ _ _ inside

theorem writtenBack_elsewhere (s : BufState) (e : EntryId) (disk : DiskId)
    (offsetAligned : offset % BLOCKSIZE = 0) (d : DiskId) {o : Nat} (aligned : o % BLOCKSIZE = 0)
    (different : ¬ (d = disk ∧ o = offset)) (inside : index < BLOCKSIZE) :
    (writtenBack s e disk offset).disk d (o + index) = s.disk d (o + index) := by
  simp only [writtenBack]
  by_cases sameDisk : d = disk
  · subst d
    rw [update_self]
    have apart := aligned_apart aligned offsetAligned (fun same => different ⟨rfl, same⟩)
    exact copyBytes_outside _ _ _ _ _ _ (by omega)
  · rw [update_of_ne sameDisk]

theorem writtenBack_content (coherent : Coherent bufBase trusted s) (key : HasKey s e disk offset) :
    Coherent bufBase trusted (writtenBack s e disk offset) ∧
    ∀ d o, o % BLOCKSIZE = 0 → ∀ index < BLOCKSIZE,
      content (writtenBack s e disk offset) d o index = content s d o index := by
  have inv := coherent.rep
  have offsetAligned := coherent.aligned e disk offset key
  have after : RepInv bufBase (writtenBack s e disk offset) := inv.of_lists rfl rfl rfl
  refine ⟨⟨after, coherent.aligned, ?_⟩, ?_⟩
  · intro x d o trust xKey free index inside
    by_cases same : d = disk ∧ o = offset
    · obtain ⟨rfl, rfl⟩ := same
      have sameEntry : x = e := HasKey.unique inv xKey key
      subst x
      exact (writtenBack_disk s e d o index inside).symm
    · rw [writtenBack_elsewhere s e disk offsetAligned d (coherent.aligned x d o xKey) same inside]
      exact coherent.clean x d o trust xKey free index inside
  · intro d o aligned index inside
    by_cases same : d = disk ∧ o = offset
    · obtain ⟨rfl, rfl⟩ := same
      rw [content_cached inv key, content_cached after key]
      rfl
    · exact content_congr inv after (fun _ => Iff.rfl) (fun _ _ => rfl)
        (writtenBack_elsewhere s e disk offsetAligned d aligned same inside)

end BoringOs.BufCache
