import BoringOs.NewfsDisk
import BoringOs.O2fsVolume

/-! A volume made by `newfs_o2fs` is one the kernel can mount: its block nodes own their
blocks, and the bitmap knows all of them. -/

namespace BoringOs.Newfs

open ByteMemory BufCache O2fs Ownership List Nat

variable {start stop offset : Nat} {img : Memory} {front back : List Segment} {env : Env} {entries : Entries}

structure Chained (segments : List Segment) (start stop : Nat) : Prop where
  inside : ∀ seg ∈ segments, start ≤ seg.first ∧ seg.node + BLOCKSIZE ≤ stop
  aligned : ∀ seg ∈ segments, seg.first % BLOCKSIZE = 0
  apart : segments.Pairwise (fun left right => left.node + BLOCKSIZE ≤ right.first)

theorem Chained.append {start middle stop : Nat}
    (first : Chained front start middle) (second : Chained back middle stop)
    (low : start ≤ middle) (high : middle ≤ stop) : Chained (front ++ back) start stop := by
  constructor
  · intro seg member
    rcases mem_append.mp member with left | right
    · have bounds := first.inside seg left
      exact ⟨bounds.1, le_trans bounds.2 high⟩
    · have bounds := second.inside seg right
      exact ⟨le_trans low bounds.1, bounds.2⟩
  · intro seg member
    rcases mem_append.mp member with left | right
    · exact first.aligned seg left
    · exact second.aligned seg right
  · rw [pairwise_append]
    refine ⟨first.apart, second.apart, ?_⟩
    intro left member right other
    exact le_trans (first.inside left member).2 (second.inside right other).1

theorem Chained.single (seg : Segment) (aligned : seg.first % BLOCKSIZE = 0) :
    Chained [seg] seg.first (seg.node + BLOCKSIZE) := by
  constructor
  · intro other member
    rw [mem_singleton.mp member]
    exact ⟨le_rfl, le_rfl⟩
  · intro other member
    rw [mem_singleton.mp member]
    exact aligned
  · exact pairwise_singleton _ _

theorem Entries.segments_chained (env : Env) (entries : Entries) (aligned : start % BLOCKSIZE = 0) :
    Chained (entries.segments env start) start (start + entries.blocks env * BLOCKSIZE) := by
  induction entries generalizing start with
  | nil => exact ⟨by simp [Entries.segments], by simp [Entries.segments], List.Pairwise.nil⟩
  | file name path rest ih =>
    generalize counted : blockCeil (contentOf env path).length = count
    have place : (start + (count + 1) * BLOCKSIZE) % BLOCKSIZE = 0 := by
      rw [add_mul_mod_self_right]
      exact aligned
    have first : Chained [⟨start, count⟩] start (start + (count + 1) * BLOCKSIZE) := by
      rw [succ_mul, ← Nat.add_assoc]
      exact Chained.single ⟨start, count⟩ aligned
    have chained := first.append (ih place) (Nat.le_add_right _ _) (Nat.le_add_right _ _)
    rw [Nat.add_assoc, ← Nat.add_mul] at chained
    simp only [Entries.segments, Entries.blocks, counted]
    exact chained
  | dir name entries rest ihBelow ihRest =>
    have middle : (start + entries.blocks env * BLOCKSIZE) % BLOCKSIZE = 0 := by
      rw [add_mul_mod_self_right]
      exact aligned
    have place : (start + (entries.blocks env + 2) * BLOCKSIZE) % BLOCKSIZE = 0 := by
      rw [add_mul_mod_self_right]
      exact aligned
    have own : Chained [⟨start + entries.blocks env * BLOCKSIZE, 1⟩]
        (start + entries.blocks env * BLOCKSIZE) (start + (entries.blocks env + 2) * BLOCKSIZE) := by
      have node := Chained.single ⟨start + entries.blocks env * BLOCKSIZE, 1⟩ middle
      have stop : start + (entries.blocks env + 2) * BLOCKSIZE =
          start + entries.blocks env * BLOCKSIZE + 1 * BLOCKSIZE + BLOCKSIZE := by
        rw [add_mul]
        omega
      rw [stop]
      exact node
    have ordered : start + entries.blocks env * BLOCKSIZE ≤
        start + (entries.blocks env + 2) * BLOCKSIZE :=
      Nat.add_le_add_left (Nat.mul_le_mul_right _ (by omega)) _
    have tail := own.append (ihRest place) ordered (Nat.le_add_right _ _)
    have chained := (ihBelow aligned).append tail (Nat.le_add_right _ _)
      (Nat.le_trans ordered (Nat.le_add_right _ _))
    rw [Nat.add_assoc, ← Nat.add_mul] at chained
    exact chained

def volumeSegments (env : Env) (entries : Entries) (start : Nat) : List Segment :=
  entries.segments env start ++ [⟨start + entries.blocks env * BLOCKSIZE, 1⟩]

theorem volumeSegments_chained (env : Env) (entries : Entries) (aligned : start % BLOCKSIZE = 0) :
    Chained (volumeSegments env entries start) start
      (start + (entries.blocks env + 2) * BLOCKSIZE) := by
  have middle : (start + entries.blocks env * BLOCKSIZE) % BLOCKSIZE = 0 := by
    rw [add_mul_mod_self_right]
    exact aligned
  have chained := (entries.segments_chained env aligned).append
    (Chained.single ⟨start + entries.blocks env * BLOCKSIZE, 1⟩ middle) (Nat.le_add_right _ _)
    (by simp only [Segment.node]; omega)
  have stop : start + (entries.blocks env + 2) * BLOCKSIZE =
      start + entries.blocks env * BLOCKSIZE + 1 * BLOCKSIZE + BLOCKSIZE := by
    rw [add_mul]
    omega
  rw [stop]
  exact chained

theorem treeStart_aligned (count : Nat) : treeStart count % BLOCKSIZE = 0 := by
  rw [treeStart, add_mul_mod_self_right]
  rfl

theorem Segment.node_aligned {seg : Segment} (aligned : seg.first % BLOCKSIZE = 0) :
    seg.node % BLOCKSIZE = 0 := by
  rw [Segment.node, add_mul_mod_self_right]
  exact aligned

def volumeFiles (env : Env) (count : Nat) (entries : Entries) : Set Nat :=
  {f | ∃ seg ∈ volumeSegments env entries (treeStart count), seg.node = f}

theorem volumeFiles_above {count : Nat} {f : Nat}
    (member : f ∈ volumeFiles env count entries) : treeStart count ≤ f := by
  obtain ⟨seg, inside, rfl⟩ := member
  have chained := volumeSegments_chained env entries (treeStart_aligned count)
  exact Nat.le_trans (chained.inside seg inside).1 (Nat.le_add_right _ _)

def volumeGeometry (disk : DiskId) (env : Env) (count : Nat) (bound : count ≤ 16)
    (entries : Entries) : Geometry where
  disk := disk
  bitmapOffset := BLOCKSIZE
  bitmapBlocks := count
  files := volumeFiles env count entries
  bitmapAligned := Nat.mod_self BLOCKSIZE
  bitmapPositive := blockSize_pos
  bitmapBound := bound
  fileAligned f member := by
    obtain ⟨seg, inside, rfl⟩ := member
    have chained := volumeSegments_chained env entries (treeStart_aligned count)
    exact Segment.node_aligned (chained.aligned seg inside)
  filePositive f member := by
    have above := volumeFiles_above member
    have positive := blockSize_pos
    unfold treeStart at above
    omega
  fileApart f member i inside := by
    have above := volumeFiles_above member
    have positive := blockSize_pos
    have product := Nat.mul_le_mul_right BLOCKSIZE (Nat.succ_le_of_lt inside)
    rw [Nat.succ_mul] at product
    unfold treeStart at above
    omega

def Noded (img : Memory) (segments : List Segment) : Prop :=
  ∀ seg ∈ segments, ∃ size, NodeAt img seg.node seg.first seg.count size ∧
    size ≤ seg.count * BLOCKSIZE ∧ seg.count ≤ 64

theorem Noded.append (first : Noded img front)
    (second : Noded img back) : Noded img (front ++ back) := by
  intro seg member
  rcases mem_append.mp member with left | right
  · exact first seg left
  · exact second seg right

theorem DirAt.noded {block : Nat} {listing : List (List UInt8 × Nat)}
    (dir : DirAt img block listing) (few : listing.length ≤ 31) : Noded img [⟨block, 1⟩] := by
  intro seg member
  rw [mem_singleton.mp member]
  have room := entry_inside (lt_succ_of_le few)
  have node := dir.node
  refine ⟨BDIRENTRY_SIZE * listing.length, ?_, ?_, (by decide : 1 ≤ 64)⟩
  · rw [Segment.node, one_mul]
    exact node
  · rw [one_mul]
    omega

theorem Holds.noded (valid : entries.Valid env) (holds : Holds env img entries start) :
    Noded img (entries.segments env start) := by
  induction entries generalizing start with
  | nil =>
    intro seg member
    simp [Entries.segments] at member
  | file name path rest ih =>
    obtain ⟨file, others⟩ := holds
    have first : Noded img [⟨start, blockCeil (contentOf env path).length⟩] := by
      intro seg member
      rw [mem_singleton.mp member]
      exact ⟨_, file.node, le_blockCeil _, blockCeil_le valid.2.1.fits⟩
    exact first.append (ih valid.2.2 others)
  | dir name entries rest ihBelow ihRest =>
    obtain ⟨below, directory, others⟩ := holds
    obtain ⟨_, listable, validBelow, validRest⟩ := valid
    have few : (entries.listing env start).length ≤ 31 := by
      rw [Entries.listing_length]
      exact listable.few
    exact (ihBelow validBelow below).append ((directory.noded few).append (ihRest validRest others))

section

variable {env : Env} {count : Nat} {entries : Entries} {img : Memory}

theorem Made.noded (made : Made env count entries img) (listable : entries.Listable)
    (valid : entries.Valid env) : Noded img (volumeSegments env entries (treeStart count)) := by
  apply (made.holds.noded valid).append
  apply made.directory.noded
  rw [Entries.listing_length]
  exact listable.few

theorem Made.used (made : Made env count entries img) (disk : DiskId) (bound : count ≤ 16)
    (some_bits : 0 < count) (few : 1 + count + (entries.blocks env + 2) < BLOCKSIZE)
    (aligned : offset % BLOCKSIZE = 0)
    (inside : offset < treeStart count + (entries.blocks env + 2) * BLOCKSIZE) :
    offset ∈ used (volumeGeometry disk env count bound entries) img := by
  have number : offset / BLOCKSIZE < 1 + count + (entries.blocks env + 2) := by
    apply Nat.div_lt_of_lt_mul
    rw [mul_comm, add_mul (1 + count), add_mul 1, one_mul]
    exact inside
  refine ⟨aligned, ?_, made.bits _ number⟩
  calc offset / BLOCKSIZE < BLOCKSIZE := lt_trans number few
    _ ≤ 8 * BLOCKSIZE := Nat.le_mul_of_pos_left _ (by decide)
    _ ≤ 8 * BLOCKSIZE * count := Nat.le_mul_of_pos_right _ some_bits

theorem volumeReserved_cases {disk : DiskId} {bound : count ≤ 16}
    (reserved : (volumeGeometry disk env count bound entries).Reserved offset) :
    offset < treeStart count ∨ offset ∈ volumeFiles env count entries := by
  have positive := blockSize_pos
  unfold treeStart
  cases reserved with
  | superblock => exact .inl (by omega)
  | bitmap i inside =>
    have product := Nat.mul_le_mul_right BLOCKSIZE (succ_le_of_lt inside)
    rw [succ_mul] at product
    exact .inl (Nat.lt_of_lt_of_le (Nat.add_lt_add_left (by omega) BLOCKSIZE) (Nat.add_le_add_left product _))
  | file f inside => exact .inr inside

theorem Chained.same {segments : List Segment}
    (chained : Chained segments start stop) {left right : Segment} (member : left ∈ segments)
    (other : right ∈ segments) (low : left.first ≤ offset)
    (high : offset ≤ left.node) (lower : right.first ≤ offset) (upper : offset ≤ right.node) :
    left = right := by
  have positive := blockSize_pos
  obtain ⟨i, inside, rfl⟩ := getElem_of_mem member
  obtain ⟨j, within, rfl⟩ := getElem_of_mem other
  have apart := pairwise_iff_getElem.mp chained.apart
  rcases lt_trichotomy i j with less | same | greater
  · have gap := apart i j inside within less
    omega
  · subst same
    rfl
  · have gap := apart j i within inside greater
    omega

section

variable (made : Made env count entries img) (listable : entries.Listable)
include made listable

theorem Made.layout
    (valid : entries.Valid env) (disk : DiskId) (bound : count ≤ 16) (some_bits : 0 < count)
    (few : 1 + count + (entries.blocks env + 2) < BLOCKSIZE) :
    Layout (volumeGeometry disk env count bound entries) img := by
  have chained := volumeSegments_chained env entries (treeStart_aligned count)
  have noded := made.noded listable valid
  have positive := blockSize_pos
  -- a slot that is filled lies below the node of its segment
  have owner : ∀ slot block, slots (volumeGeometry disk env count bound entries) img slot = some block →
      ∃ seg ∈ volumeSegments env entries (treeStart count), seg.node = slot.1.1 ∧
        block = seg.first + slot.2 * BLOCKSIZE ∧ block + BLOCKSIZE ≤ seg.node := by
    rintro ⟨⟨f, seg, member, rfl⟩, i⟩ block found
    obtain ⟨size, node, _, _⟩ := noded seg member
    refine ⟨seg, member, rfl, ?_⟩
    simp only [slots, node.direct i i.isLt] at found
    by_cases present : i.1 < seg.count
    · rw [if_pos present] at found
      split at found
      · cases found
      · have value := Option.some.inj found
        refine ⟨value.symm, ?_⟩
        have product := Nat.mul_le_mul_right BLOCKSIZE (succ_le_of_lt present)
        rw [succ_mul] at product
        rw [← value, Segment.node]
        omega
    · simp [present] at found
  constructor
  · intro slot block found
    obtain ⟨seg, member, _, value, below⟩ := owner slot block found
    have inside := (chained.inside seg member).2
    apply made.used disk bound some_bits few _ (by omega)
    rw [value, add_mul_mod_self_right]
    exact chained.aligned seg member
  · intro slot block found reserved
    obtain ⟨seg, member, _, value, below⟩ := owner slot block found
    have above := (chained.inside seg member).1
    rcases volumeReserved_cases reserved with low | ⟨other, within, rfl⟩
    · omega
    · have same := chained.same member within (show seg.first ≤ other.node by omega) (by omega)
        (Nat.le_add_right _ _) le_rfl
      rw [same] at below
      omega
  · intro slot other block found again
    obtain ⟨seg, member, node, value, below⟩ := owner slot block found
    obtain ⟨seg', member', node', value', below'⟩ := owner other block again
    obtain rfl := chained.same member member' (show seg.first ≤ block by omega) (by omega)
      (by omega) (by omega)
    have file : slot.1 = other.1 := Subtype.ext (node.symm.trans node')
    have index : slot.2 = other.2 := by
      apply Fin.ext
      apply eq_of_mul_eq_mul_right positive
      omega
    exact Prod.ext file index
  · intro offset reserved
    apply made.used disk bound some_bits few (Geometry.reserved_aligned _ reserved)
    rcases volumeReserved_cases reserved with low | ⟨seg, member, rfl⟩
    · omega
    · have inside := (chained.inside seg member).2
      omega

theorem Made.sized (valid : entries.Valid env) (disk : DiskId) (bound : count ≤ 16) :
    Sized (volumeGeometry disk env count bound entries) img := by
  have chained := volumeSegments_chained env entries (treeStart_aligned count)
  have positive := blockSize_pos
  rintro f ⟨seg, member, rfl⟩
  obtain ⟨size, node, covered, most⟩ := made.noded listable valid seg member
  rw [node.size]
  refine ⟨Nat.le_trans covered (Nat.mul_le_mul_right _ most), ?_⟩
  intro i below
  have inside : i < seg.count :=
    Nat.lt_of_mul_lt_mul_right (Nat.lt_of_lt_of_le below covered)
  have first := (chained.inside seg member).1
  rw [node.direct i (by omega), if_pos inside]
  unfold treeStart at first
  omega

theorem Made.formatted (valid : entries.Valid env) (disk : DiskId) (bound : count ≤ 16) :
    Formatted (volumeGeometry disk env count bound entries) img where
  superblock := made.superblock
  blockSize := made.blockSize
  bitmapSize := made.bitmapSize
  bitmapOffset := made.bitmapOffset
  bitmapEnd := by
    have small : BLOCKSIZE + 16 * BLOCKSIZE < word64 := by decide
    exact small
  root := by
    rw [made.root]
    refine ⟨⟨treeStart count + entries.blocks env * BLOCKSIZE, 1⟩, ?_, ?_⟩
    · exact mem_append_right _ (mem_singleton_self _)
    · rw [Segment.node, add_assoc, ← add_mul]
  nodes := by
    rintro f ⟨seg, member, rfl⟩
    obtain ⟨size, node, _⟩ := made.noded listable valid seg member
    exact node.accepted

end

end

end BoringOs.Newfs
