import BoringOs.BufCacheContent
import Mathlib.Data.Finset.Card

/-! A disk as its users see it through the cache: one byte-addressed image, and the effect on it of
the five things that a file system does with the cache. -/

namespace BoringOs.BufCache

open ByteMemory Nat

def Held (s : BufState) (e : EntryId) (disk : DiskId) (offset : Nat) : Prop :=
  HasKey s e disk offset ∧ (s.entry e).refCount ≠ 0

def image (s : BufState) (disk : DiskId) : Memory :=
  fun address => content s disk (address / BLOCKSIZE * BLOCKSIZE) (address % BLOCKSIZE)

variable {s t u : BufState} {offset index bufBase address width : Nat} {e : EntryId} {disk : DiskId}

def Outside (bufBase address : Nat) : Prop :=
  address < bufBase ∨ bufBase + BLOCKSIZE * CACHEENTRIES ≤ address

abbrev OutsideAll (bufBase buf length : Nat) : Prop :=
  ∀ address, buf ≤ address → address < buf + length → Outside bufBase address

theorem image_block (s : BufState) (disk : DiskId)
    (aligned : offset % BLOCKSIZE = 0) (inside : index < BLOCKSIZE) :
    image s disk (offset + index) = content s disk offset index := by
  have quotient : (offset + index) / BLOCKSIZE * BLOCKSIZE = offset := by
    unfold BLOCKSIZE at *
    omega
  have remainder : (offset + index) % BLOCKSIZE = index := by
    unfold BLOCKSIZE at *
    omega
  rw [image, quotient, remainder]

theorem blockStart_aligned (address : Nat) : address / BLOCKSIZE * BLOCKSIZE % BLOCKSIZE = 0 :=
  mul_mod_left _ _

theorem blockIndex_lt (address : Nat) : address % BLOCKSIZE < BLOCKSIZE :=
  mod_lt _ (by decide)

section

variable (inv : RepInv bufBase s)
include inv

section

variable (key : HasKey s e disk offset) (aligned : offset % BLOCKSIZE = 0)
include key aligned

theorem image_key (inside : index < BLOCKSIZE) :
    image s disk (offset + index) = s.memory ((s.entry e).buffer + index) := by
  rw [image_block s disk aligned inside, content_cached inv key]

theorem buffer_match :
    MatchAt s.memory (s.entry e).buffer (image s disk) offset BLOCKSIZE :=
  fun _ inside => (image_key inv key aligned inside).symm

theorem loadLE_image (inside : index + width ≤ BLOCKSIZE) :
    loadLE s.memory ((s.entry e).buffer + index) width =
      loadLE (image s disk) (offset + index) width :=
  loadLE_match (buffer_match inv key aligned) inside

end

theorem RepInv.buffer_inside (bound : e < CACHEENTRIES) (low : (s.entry e).buffer ≤ address)
    (high : address < (s.entry e).buffer + BLOCKSIZE) : ¬ Outside bufBase address := by
  rw [inv.buffers e bound] at low high
  have next := Nat.mul_le_mul_left BLOCKSIZE bound
  rw [mul_succ] at next
  unfold Outside
  omega

end

variable {bufBase : Nat} {trusted : DiskId → Nat → Prop}

theorem image_congr (same : content t disk (address / BLOCKSIZE * BLOCKSIZE) (address % BLOCKSIZE) =
      content s disk (address / BLOCKSIZE * BLOCKSIZE) (address % BLOCKSIZE)) :
    image t disk address = image s disk address := same

def withMemory (s : BufState) (memory : Memory) : BufState := { s with memory := memory }

section

variable (coherent : Coherent bufBase trusted s)
include coherent

section

variable (held : Held s e disk offset)
include held

theorem modify_image (memory : Memory) (others : ∀ address, address < (s.entry e).buffer ∨
      (s.entry e).buffer + BLOCKSIZE ≤ address → memory address = s.memory address) :
    Coherent bufBase trusted (withMemory s memory) ∧
    image (withMemory s memory) disk = (fun address =>
      if offset ≤ address ∧ address < offset + BLOCKSIZE then
        memory ((s.entry e).buffer + (address - offset))
      else image s disk address) ∧
    ∀ d, d ≠ disk → image (withMemory s memory) d = image s d := by
  obtain ⟨after, own, elsewhere⟩ := modify_content (t := withMemory s memory) coherent held.1
    held.2 rfl rfl rfl rfl others
  have aligned := coherent.aligned e disk offset held.1
  refine ⟨after, ?_, ?_⟩
  · funext address
    by_cases here : offset ≤ address ∧ address < offset + BLOCKSIZE
    · have place : address = offset + (address - offset) := by omega
      rw [if_pos here]
      conv => lhs; rw [place]
      rw [image_block _ _ aligned (by omega), own]
      rfl
    · rw [if_neg here]
      apply image_congr
      apply elsewhere _ _ _ _ (blockIndex_lt address)
      rintro ⟨_, same⟩
      have := div_add_mod' address BLOCKSIZE
      have := blockIndex_lt address
      omega
  · intro d other
    funext address
    apply image_congr
    exact elsewhere _ _ (fun same => other same.1) _ (blockIndex_lt address)

theorem copy_image {index count : Nat}
    (inside : index + count ≤ BLOCKSIZE) (source : Memory) (start : Nat) :
    let t := withMemory s (copyBytes s.memory ((s.entry e).buffer + index) source start count)
    Coherent bufBase trusted t ∧
    image t disk = copyBytes (image s disk) (offset + index) source start count ∧
    ∀ d, d ≠ disk → image t d = image s d := by
  intro t
  have aligned := coherent.aligned e disk offset held.1
  obtain ⟨after, own, elsewhere⟩ := modify_image coherent held
    (copyBytes s.memory ((s.entry e).buffer + index) source start count)
    (fun address outside => copyBytes_outside _ _ _ _ _ _ (by omega))
  refine ⟨after, own.trans ?_, elsewhere⟩
  funext address
  by_cases block : offset ≤ address ∧ address < offset + BLOCKSIZE
  · obtain ⟨k, rfl⟩ : ∃ k, address = offset + k := ⟨address - offset, by omega⟩
    rw [if_pos block, Nat.add_sub_cancel_left]
    by_cases here : index ≤ k ∧ k < index + count
    · rw [copyBytes_inside _ _ _ _ _ _ (by omega) (by omega),
        copyBytes_inside _ _ _ _ _ _ (by omega) (by omega)]
      congr 1
      omega
    · rw [copyBytes_outside s.memory _ _ _ _ _ (by omega), copyBytes_outside _ _ _ _ _ _ (by omega),
        image_key coherent.rep held.1 aligned (by omega)]
  · rw [if_neg block, copyBytes_outside _ _ _ _ _ _ (by omega)]

theorem store_image (inside : index + width ≤ BLOCKSIZE) (value : Nat) :
    let t := withMemory s (storeLE s.memory ((s.entry e).buffer + index) width value)
    Coherent bufBase trusted t ∧
    image t disk = storeLE (image s disk) (offset + index) width value ∧
    ∀ d, d ≠ disk → image t d = image s d := by
  rw [storeLE_eq_copyBytes, storeLE_eq_copyBytes]
  exact copy_image coherent held inside _ _

theorem update_image (inside : index < BLOCKSIZE) (value : UInt8) :
    let t := withMemory s (Function.update s.memory ((s.entry e).buffer + index) value)
    Coherent bufBase trusted t ∧
    image t disk = Function.update (image s disk) (offset + index) value ∧
    ∀ d, d ≠ disk → image t d = image s d := by
  rw [update_eq_copyBytes, update_eq_copyBytes]
  exact copy_image coherent held (by omega) _ _

end

theorem writtenBack_image (key : HasKey s e disk offset) :
    Coherent bufBase trusted (writtenBack s e disk offset) ∧
    ∀ d, image (writtenBack s e disk offset) d = image s d := by
  obtain ⟨after, same⟩ := writtenBack_content coherent key
  refine ⟨after, ?_⟩
  intro d
  funext address
  exact image_congr (same _ _ (blockStart_aligned address) _ (blockIndex_lt address))

theorem outside_image (memory : Memory)
    (same : ∀ address, ¬ Outside bufBase address → memory address = s.memory address) :
    Coherent bufBase trusted (withMemory s memory) ∧
    ∀ d, image (withMemory s memory) d = image s d := by
  have after : RepInv bufBase (withMemory s memory) := coherent.rep.of_lists rfl rfl rfl
  have buffers : ∀ e < CACHEENTRIES, ∀ index < BLOCKSIZE,
      memory ((s.entry e).buffer + index) = s.memory ((s.entry e).buffer + index) := by
    intro e bound index inside
    exact same _ (coherent.rep.buffer_inside bound (by omega) (by omega))
  refine ⟨⟨after, coherent.aligned, ?_⟩, ?_⟩
  · intro e disk offset trust key free index inside
    exact (buffers e key.1 index inside).trans
      (coherent.clean e disk offset trust key free index inside)
  · intro d
    funext address
    exact image_congr (content_congr coherent.rep after (fun _ => Iff.rfl)
      (fun e key => buffers e key.1 _ (blockIndex_lt address)) rfl)

end

structure Steady (s t : BufState) : Prop where
  counts : ∀ e, (t.entry e).refCount = (s.entry e).refCount
  kept : ∀ e disk offset, Held s e disk offset → Held t e disk offset
  buffers : ∀ e, (t.entry e).buffer = (s.entry e).buffer

theorem Steady.refl (s : BufState) : Steady s s := ⟨fun _ => rfl, fun _ _ _ held => held, fun _ => rfl⟩

theorem Steady.trans (first : Steady s t) (second : Steady t u) : Steady s u where
  counts e := (second.counts e).trans (first.counts e)
  kept e disk offset held := second.kept e disk offset (first.kept e disk offset held)
  buffers e := (second.buffers e).trans (first.buffers e)

theorem Steady.of_entry (entries : t.entry = s.entry) : Steady s t := by
  constructor
  · intro e
    rw [entries]
  · intro e disk offset held
    rw [Held, HasKey, entries]
    exact held
  · intro e
    rw [entries]

theorem Steady.free (steady : Steady s t) (free : ∃ e < CACHEENTRIES, (s.entry e).refCount = 0) :
    ∃ e < CACHEENTRIES, (t.entry e).refCount = 0 := by
  obtain ⟨e, bound, unreferenced⟩ := free
  exact ⟨e, bound, (steady.counts e).trans unreferenced⟩

theorem Takes.visit (takes : Takes s t e disk offset) (entries : u.entry = t.entry) :
    Steady s (bufCache_Release u e) := by
  have counts : ∀ x, ((bufCache_Release u e).entry x).refCount = (s.entry x).refCount := by
    intro x
    simp only [bufCache_Release, recount_refCount, entries]
    have counted := takes.counts x
    by_cases same : x = e
    · subst x
      rw [if_pos rfl] at counted ⊢
      omega
    · rw [if_neg same] at counted ⊢
      omega
  constructor
  · exact counts
  · intro x d o held
    have key := takes.keys x held.2
    refine ⟨⟨held.1.1, ?_, ?_⟩, ?_⟩
    · simp only [bufCache_Release, recount_disk, entries, key.1]
      exact held.1.2.1
    · simp only [bufCache_Release, recount_diskOffset, entries, key.2]
      exact held.1.2.2
    · rw [counts]
      exact held.2
  · intro x
    simp only [bufCache_Release, recount_buffer, entries]
    exact takes.buffers x

theorem Takes.held (takes : Takes s t e disk offset) : Held t e disk offset := by
  refine ⟨takes.key, ?_⟩
  rw [takes.counts, if_pos rfl]
  omega

theorem Takes.outside (inv : RepInv bufBase s) (takes : Takes s t e disk offset)
    (free : Outside bufBase address) : t.memory address = s.memory address := by
  apply takes.elsewhere
  by_contra inside
  exact inv.buffer_inside takes.key.1 (by omega) (by omega) free

theorem bufCache_Read_available (coherent : Coherent bufBase trusted s)
    (disk : DiskId) (aligned : offset % BLOCKSIZE = 0) (ok : s.readStatus 0 = 0)
    (free : ∃ e < CACHEENTRIES, (s.entry e).refCount = 0) :
    ∃ e t, bufCache_Read s disk offset = (0, some e, t) ∧ Takes s t e disk offset ∧
      Coherent bufBase trusted t ∧
      ∀ d o, trusted d o → ∀ index < BLOCKSIZE, content t d o index = content s d o index := by
  obtain ⟨after, same, status⟩ := bufCache_Read_content coherent disk offset aligned (fun _ => .inl ok)
  rcases bufCache_Read_takes coherent.rep disk offset with ⟨e, found, takes⟩ | failed
  · refine ⟨e, _, ?_, takes, after, same⟩
    rw [← status ok e found, ← found]
  · exfalso
    rcases bufCache_Read_cases coherent.rep disk offset with
      ⟨_, _, _, _, result⟩ | ⟨_, empty, _⟩ | ⟨_, _, _, _, result⟩
    · rw [result] at failed
      simp at failed
    · obtain ⟨e, bound, unreferenced⟩ := free
      have once := coherent.rep.lru e bound
      rw [empty, if_pos unreferenced] at once
      simp at once
    · rw [result] at failed
      simp at failed

theorem Takes.clean (coherent : Coherent bufBase trusted s) (after : Coherent bufBase trusted t)
    (takes : Takes s t e disk offset) (trust : trusted disk offset)
    (same : ∀ index < BLOCKSIZE, content t disk offset index = content s disk offset index)
    (first : (t.entry e).refCount = 1) :
    ∀ index < BLOCKSIZE, t.memory ((t.entry e).buffer + index) = t.disk disk (offset + index) := by
  have unheld : (s.entry e).refCount = 0 := by
    have counted := takes.counts e
    rw [if_pos rfl] at counted
    omega
  intro index inside
  rw [← content_cached after.rep takes.key, same index inside, takes.disks]
  by_cases cached : ∃ x, HasKey s x disk offset
  · obtain ⟨x, key⟩ := cached
    have free : (s.entry x).refCount = 0 := by
      by_contra held
      have sameKey := takes.keys x held
      have moved : HasKey t x disk offset :=
        ⟨key.1, sameKey.1.trans key.2.1, sameKey.2.trans key.2.2⟩
      exact held (HasKey.unique after.rep moved takes.key ▸ unheld)
    rw [content_cached coherent.rep key]
    exact coherent.clean x disk offset trust key free index inside
  · exact content_uncached coherent.rep (fun x key => cached ⟨x, key⟩) index

/-- The entries that `BufCacheAlloc` can still hand out. -/
@[irreducible] def unreferenced (s : BufState) : Finset EntryId :=
  (Finset.range CACHEENTRIES).filter (fun e => (s.entry e).refCount = 0)

theorem exists_unreferenced (some_left : 0 < (unreferenced s).card) :
    ∃ e < CACHEENTRIES, (s.entry e).refCount = 0 := by
  obtain ⟨e, member⟩ := Finset.card_pos.mp some_left
  simp only [unreferenced, Finset.mem_filter, Finset.mem_range] at member
  exact ⟨e, member⟩

theorem Steady.unreferenced (steady : Steady s t) :
    BufCache.unreferenced t = BufCache.unreferenced s := by
  unfold BufCache.unreferenced
  apply Finset.filter_congr
  intro e _
  rw [steady.counts]

theorem Takes.unreferenced (takes : Takes s t e disk offset) :
    (BufCache.unreferenced s).card ≤ (BufCache.unreferenced t).card + 1 := by
  have subset : BufCache.unreferenced s ⊆ insert e (BufCache.unreferenced t) := by
    intro x member
    simp only [BufCache.unreferenced, Finset.mem_filter, Finset.mem_range, Finset.mem_insert]
      at member ⊢
    by_cases same : x = e
    · exact .inl same
    · refine .inr ⟨member.1, ?_⟩
      rw [takes.counts, if_neg same]
      exact member.2
  exact (Finset.card_le_card subset).trans (Finset.card_insert_le _ _)

/-- `t` is `s` after at most `n` more references, with transfers that succeed: the images
and the references held before are the same. -/
structure Retained (bufBase : Nat) (s t : BufState) (n : Nat) : Prop where
  coherent : Coherent bufBase everyBlock t
  reads : ∀ n, t.readStatus n = 0
  writeStatus : t.writeStatus = s.writeStatus
  kept : ∀ e disk offset, Held s e disk offset → Held t e disk offset
  images : ∀ d, image t d = image s d
  disks : t.disk = s.disk
  outside : ∀ address, Outside bufBase address → t.memory address = s.memory address
  left : (BufCache.unreferenced s).card ≤ (BufCache.unreferenced t).card + n

theorem Retained.refl (coherent : Coherent bufBase everyBlock s)
    (reads : ∀ n, s.readStatus n = 0) : Retained bufBase s s 0 :=
  ⟨coherent, reads, rfl, fun _ _ _ held => held, fun _ => rfl, rfl, fun _ _ => rfl,
    Nat.le_add_right _ _⟩

theorem Retained.trans {n m : Nat} (first : Retained bufBase s t n)
    (second : Retained bufBase t u m) : Retained bufBase s u (n + m) where
  coherent := second.coherent
  reads := second.reads
  writeStatus := second.writeStatus.trans first.writeStatus
  kept e disk offset held := second.kept e disk offset (first.kept e disk offset held)
  images d := (second.images d).trans (first.images d)
  disks := second.disks.trans first.disks
  outside address free := (second.outside address free).trans (first.outside address free)
  left := by
    have := first.left
    have := second.left
    omega

theorem Takes.kept
    (takes : Takes s t e disk offset) {x : EntryId} {d : DiskId} {o : Nat} (held : Held s x d o) :
    Held t x d o := by
  have same := takes.keys x held.2
  have counted := takes.counts x
  have before := held.2
  exact ⟨⟨held.1.1, same.1.trans held.1.2.1, same.2.trans held.1.2.2⟩, by omega⟩

theorem bufCache_Read_retains (coherent : Coherent bufBase everyBlock s)
    (reads : ∀ n, s.readStatus n = 0) (disk : DiskId)
    (aligned : offset % BLOCKSIZE = 0) (some_left : 0 < (BufCache.unreferenced s).card) :
    ∃ e t, bufCache_Read s disk offset = (0, some e, t) ∧ Takes s t e disk offset ∧
      Retained bufBase s t 1 := by
  obtain ⟨e, t, result, takes, after, same⟩ := bufCache_Read_available coherent disk aligned
    (reads 0) (exists_unreferenced some_left)
  refine ⟨e, t, result, takes, after, takes.readStatus reads, takes.writeStatus,
    fun _ _ _ held => takes.kept held, ?_, takes.disks,
    fun _ free => takes.outside coherent.rep free, takes.unreferenced⟩
  intro d
  funext address
  exact image_congr (same _ _ trivial _ (blockIndex_lt address))

theorem Takes.released (coherent : Coherent bufBase everyBlock s) (takes : Takes s t e disk offset)
    (retained : Retained bufBase s t 1) : Retained bufBase s (bufCache_Release t e) 0 := by
  have held := takes.held
  have aligned := retained.coherent.aligned e disk offset held.1
  have same : ∀ index < BLOCKSIZE, content t disk offset index = content s disk offset index := by
    intro index inside
    rw [← image_block t disk aligned inside, ← image_block s disk aligned inside, retained.images]
  obtain ⟨after, contents⟩ := bufCache_Release_content retained.coherent held.1.1 held.2
    (by
      intro last d o trust key index inside
      obtain ⟨rfl, rfl⟩ := key.inj held.1
      exact takes.clean coherent retained.coherent trivial same last index inside)
  have steady : Steady s (bufCache_Release t e) := takes.visit rfl
  refine ⟨after, retained.reads, retained.writeStatus, steady.kept, ?_, retained.disks,
    retained.outside, ?_⟩
  · intro d
    rw [← retained.images d]
    funext address
    exact image_congr (contents _ _ _)
  · rw [steady.unreferenced]
    exact le_refl _

theorem init_absent (bufBase : Nat) (memory : Memory) (disk : DiskId → Memory)
    (readStatus writeStatus : Nat → Int) (e : EntryId) (d : DiskId) (o : Nat) :
    ¬ HasKey (bufCacheInit bufBase memory disk readStatus writeStatus) e d o := by
  intro key
  simp [HasKey, bufCacheInit] at key

theorem init_coherent (bufBase : Nat) (memory : Memory) (disk : DiskId → Memory)
    (readStatus writeStatus : Nat → Int) :
    Coherent bufBase trusted (bufCacheInit bufBase memory disk readStatus writeStatus) where
  rep := bufCacheInit_inv bufBase memory disk readStatus writeStatus
  aligned e d o key := absurd key (init_absent _ _ _ _ _ e d o)
  clean e d o _ key := absurd key (init_absent _ _ _ _ _ e d o)

theorem init_image (bufBase : Nat) (memory : Memory) (disk : DiskId → Memory)
    (readStatus writeStatus : Nat → Int) (d : DiskId) :
    image (bufCacheInit bufBase memory disk readStatus writeStatus) d = disk d := by
  funext address
  have uncached := content_uncached (bufCacheInit_inv bufBase memory disk readStatus writeStatus)
    (fun e => init_absent _ _ _ _ _ e d (address / BLOCKSIZE * BLOCKSIZE)) (address % BLOCKSIZE)
  rw [image, uncached, div_add_mod']
  rfl

theorem init_unreferenced (bufBase : Nat) (memory : Memory) (disk : DiskId → Memory)
    (readStatus writeStatus : Nat → Int) :
    (BufCache.unreferenced (bufCacheInit bufBase memory disk readStatus writeStatus)).card =
      CACHEENTRIES := by
  have free : ∀ e ∈ Finset.range CACHEENTRIES,
      ((bufCacheInit bufBase memory disk readStatus writeStatus).entry e).refCount = 0 :=
    fun _ _ => rfl
  unfold BufCache.unreferenced
  rw [Finset.filter_true_of_mem free, Finset.card_range]

end BoringOs.BufCache
