import BoringOs.O2fsRun

/-! `O2FS_Read` for every 64-bit request: the bytes that it delivers, the number that it returns and
the blocks that it resolves. -/

namespace BoringOs.O2fs

open ByteMemory BufCache List

/-- The block indices that the copy loop of `O2FS_Read` resolves. -/
def resolvedBlocks (fn : VNode) (rounds : Nat) (s : IoState) (buf off length : Nat) : List Nat :=
  (blockVisits readBlock fn rounds s buf off length).map Prod.snd

def o2fs_ReadBlocks (fn : VNode) (buf off length : Nat) (s : IoState) : List Nat :=
  let size := bnSize s.cache.memory (bufferOf s.cache fn.fsptr)
  if off > size then []
  else resolvedBlocks fn (readLength size off length + 1) s buf off (readLength size off length)

/-- The bytes at `[off, off + length)` that the file has are delivered and counted, no other byte
outside the cache changes, and only direct pointers are used. -/
structure ExactRead (bufBase : Nat) (g : Geometry) (vn : VNode) (f buf off length : Nat)
  (io : IoState) : Prop where
  returns : ∃ t : IoState, o2fs_Read vn buf off length io =
      some (((min length (bnSize (image io.cache g.disk) f - off) : Nat) : Int), t) ∧
    (∀ j < min length (bnSize (image io.cache g.disk) f - off),
      t.cache.memory (buf + j) = fileByte (image io.cache g.disk) f (off + j)) ∧
    ∀ address, Outside bufBase address →
      address < buf ∨ buf + min length (bnSize (image io.cache g.disk) f - off) ≤ address →
      t.cache.memory address = io.cache.memory address
  blocks : ∀ b ∈ o2fs_ReadBlocks vn buf off length io, b < O2FS_DIRECT_PTR

section

variable {bufBase : Nat} {g : Geometry} {fs : VFS} {vn : VNode} {f : Nat} {start : BufState}
  {io : IoState} {buf off length k n : Nat}

section

variable (volume : Volume bufBase g fs start) (opened : Opened g fs start vn f)
include volume opened

section

variable (free : ∃ e < CACHEENTRIES, (start.entry e).refCount = 0)
include free

theorem Reading.resolves (reading : Reading bufBase g start f buf off k io.cache)
    (slot : (off + k) / BLOCKSIZE < 64) (fits : (off + k) % BLOCKSIZE + n ≤ BLOCKSIZE)
    (target : OutsideAll bufBase buf (k + n))
    (chunk : chunkLength BLOCKSIZE (off + k) (length - k) = n) :
    ∃ next : IoState, Reading bufBase g start f buf off (k + n) next.cache ∧
      ∀ rounds, resolvedBlocks vn (rounds + 1) io (buf + k) (off + k) (length - k) =
        (off + k) / BLOCKSIZE :: if length - (k + n) = 0 then []
          else resolvedBlocks vn rounds next (buf + (k + n)) (off + (k + n)) (length - (k + n)) := by
  have blockSize := (reading.volume volume).readsBlockSize opened.vfs
  obtain ⟨e, cache, resolved, next⟩ := reading.step volume opened free slot fits target
  have offset : add64 (off + k) n = off + (k + n) := by
    rw [add64_of_lt, add_assoc]
    unfold BLOCKSIZE word64 at *
    omega
  refine ⟨_, next, fun rounds => ?_⟩
  rw [resolvedBlocks, blockVisits]
  simp only [blockSize, resolved, chunk, offset]
  rw [if_neg (by decide), if_neg (by decide), List.map_cons, Nat.sub_sub, Nat.add_assoc]
  split <;> rfl

theorem resolvedBlocks_below
    (inside : off < 64 * BLOCKSIZE) (covered : 0 < length → off + length ≤ 64 * BLOCKSIZE)
    (target : OutsideAll bufBase buf length) :
    ∀ rounds k io, Reading bufBase g start f buf off k io.cache → (k < length ∨ k = 0 ∧ length = 0) →
      ∀ b ∈ resolvedBlocks vn rounds io (buf + k) (off + k) (length - k), b < O2FS_DIRECT_PTR := by
  intro rounds
  induction rounds with
  | zero =>
    intro k io _ _ b member
    cases member
  | succ rounds ih =>
    intro k io reading more
    have index := blockIndex_lt (off + k)
    have slot : (off + k) / BLOCKSIZE < 64 := by
      apply Nat.div_lt_of_lt_mul
      rw [mul_comm]
      omega
    have chunk : chunkLength BLOCKSIZE (off + k) (length - k) =
        min (BLOCKSIZE - (off + k) % BLOCKSIZE) (length - k) := by
      apply chunkLength_eq
      unfold BLOCKSIZE word64 at *
      omega
    generalize counted : min (BLOCKSIZE - (off + k) % BLOCKSIZE) (length - k) = n at chunk
    obtain ⟨next, later, result⟩ := reading.resolves volume opened free slot
      (show (off + k) % BLOCKSIZE + n ≤ BLOCKSIZE by omega)
      (fun address low high => target address low (by omega)) chunk
    intro b member
    rw [result, mem_cons] at member
    rcases member with rfl | member
    · exact slot
    · split at member
      · cases member
      · exact ih (k + n) next later (by omega) b member

theorem resolvedBlocks_reach (lengthBound : length < word64)
    (target : OutsideAll bufBase buf length) :
    ∀ blocks k io rounds, Reading bufBase g start f buf off k io.cache →
      off + k + blocks * BLOCKSIZE = 64 * BLOCKSIZE → (off + k) % BLOCKSIZE = 0 →
      k + blocks * BLOCKSIZE < length → blocks < rounds →
      64 ∈ resolvedBlocks vn rounds io (buf + k) (off + k) (length - k) := by
  intro blocks
  induction blocks with
  | zero =>
    intro k io rounds reading reached aligned more enough
    obtain ⟨rounds, rfl⟩ : ∃ r, rounds = r + 1 := ⟨rounds - 1, by omega⟩
    have blockSize := (reading.volume volume).readsBlockSize opened.vfs
    have last : (off + k) / BLOCKSIZE = 64 := by
      unfold BLOCKSIZE at *
      omega
    rw [resolvedBlocks, blockVisits]
    simp only [blockSize, last]
    exact mem_cons_self
  | succ blocks ih =>
    intro k io rounds reading reached aligned more enough
    obtain ⟨rounds, rfl⟩ : ∃ r, rounds = r + 1 := ⟨rounds - 1, by omega⟩
    rw [Nat.succ_mul] at reached more
    have slot : (off + k) / BLOCKSIZE < 64 := by
      unfold BLOCKSIZE at *
      omega
    have chunk : chunkLength BLOCKSIZE (off + k) (length - k) = BLOCKSIZE := by
      rw [chunkLength, aligned, add64_of_lt (by omega), if_pos (by omega)]
      rfl
    obtain ⟨next, later, result⟩ := reading.resolves volume opened free slot
      (show (off + k) % BLOCKSIZE + BLOCKSIZE ≤ BLOCKSIZE by omega)
      (fun address low high => target address low (by omega)) chunk
    rw [result, if_neg (by omega)]
    apply mem_cons_of_mem
    refine ih (k + BLOCKSIZE) next rounds later (by omega) ?_ (by omega) (by omega)
    rw [← add_assoc, Nat.add_mod_right]
    exact aligned

end

end

end

section

variable {bufBase : Nat} {g : Geometry} {fs : VFS} {vn : VNode} {f : Nat} {io : IoState}
  {buf off length : Nat}

theorem Volume.reading (volume : Volume bufBase g fs io.cache) (f buf off : Nat) :
    Reading bufBase g io.cache f buf off 0 io.cache where
  coherent := volume.coherent
  steady := .refl _
  reads := volume.reads
  writes := volume.writes
  images _ := rfl
  delivered j less := absurd less (by omega)
  elsewhere _ _ _ := rfl

theorem wrapping_read (volume : Volume bufBase g fs io.cache) (opened : Opened g fs io.cache vn f)
    (free : ∃ e < CACHEENTRIES, (io.cache.entry e).refCount = 0) (lengthBound : length < word64)
    (target : OutsideAll bufBase buf length)
    (inside : off ≤ 64 * BLOCKSIZE) (wraps : word64 ≤ off + length) :
    64 ∈ resolvedBlocks vn (length + 1) io buf off length ∨
    ∃ n t, blockLoop readBlock vn (length + 1) io buf off length 0 = some (n, t) ∧ n < 0 := by
  have reading := volume.reading f buf off
  have index := blockIndex_lt off
  by_cases boundary : off % BLOCKSIZE = 0
  · left
    have reached := resolvedBlocks_reach volume opened free lengthBound target
      (64 - off / BLOCKSIZE) 0 io (length + 1) reading
    rw [add_zero, add_zero, Nat.sub_zero] at reached
    refine reached ?_ boundary ?_ ?_
    · unfold BLOCKSIZE at *
      omega
    · unfold BLOCKSIZE word64 at *
      omega
    · unfold BLOCKSIZE word64 at *
      omega
  · have slot : (off + 0) / BLOCKSIZE < 64 := by
      unfold BLOCKSIZE at *
      omega
    by_cases whole : word64 ≤ off % BLOCKSIZE + length
    · right
      have chunk : chunkLength BLOCKSIZE off length = length := by
        rw [chunkLength, if_neg]
        unfold add64 word64 BLOCKSIZE at *
        omega
      obtain ⟨e, cache, resolved, _⟩ := volume.resolve opened slot free
      refine ⟨toInt32 (0 + length),
        readBlock { io with cache := cache } e buf (off % BLOCKSIZE) length, ?_, ?_⟩
      · rw [blockLoop]
        simp only [volume.readsBlockSize opened.vfs, chunk]
        rw [add_zero] at resolved
        rw [if_neg (by decide), resolved]
        dsimp only
        rw [if_neg (by decide), Nat.sub_self, if_pos rfl]
      · unfold toInt32 word64 BLOCKSIZE at *
        omega
    · left
      have chunk : chunkLength BLOCKSIZE (off + 0) (length - 0) = BLOCKSIZE - off % BLOCKSIZE := by
        rw [add_zero, Nat.sub_zero, chunkLength, add64_of_lt (by omega), if_pos]
        unfold BLOCKSIZE word64 at *
        omega
      obtain ⟨next, later, result⟩ := reading.resolves volume opened free slot
        (show (off + 0) % BLOCKSIZE + (BLOCKSIZE - off % BLOCKSIZE) ≤ BLOCKSIZE by
          rw [add_zero]
          omega)
        (fun address low high => target address low (by unfold BLOCKSIZE word64 at *; omega)) chunk
      have first := result length
      simp only [add_zero, Nat.sub_zero, zero_add] at first later
      rw [if_neg (by unfold BLOCKSIZE word64 at *; omega)] at first
      rw [first]
      apply mem_cons_of_mem
      refine resolvedBlocks_reach volume opened free lengthBound target (63 - off / BLOCKSIZE)
        (BLOCKSIZE - off % BLOCKSIZE) next length later ?_ ?_ ?_ ?_
      · unfold BLOCKSIZE at *
        omega
      · unfold BLOCKSIZE at *
        omega
      · unfold BLOCKSIZE word64 at *
        omega
      · unfold BLOCKSIZE word64 at *
        omega

/-- `O2FS_Read` is exact for a request behind the end of the file, and for one that starts in the
first 64 blocks and does not wrap around; for no other. -/
theorem o2fs_read_exact_iff (volume : Volume bufBase g fs io.cache)
    (opened : Opened g fs io.cache vn f) (free : ∃ e < CACHEENTRIES, (io.cache.entry e).refCount = 0)
    (lengthBound : length < word64)
    (target : ∀ address, buf ≤ address → address < buf + length → Outside bufBase address) :
    ExactRead bufBase g vn f buf off length io ↔
      bnSize (image io.cache g.disk) f < off ∨ off < 64 * BLOCKSIZE ∧ off + length < word64 := by
  have size := opened.size volume.coherent.rep
  have most := (volume.sized f opened.member).1
  have blockSize := volume.readsBlockSize opened.vfs
  have reading := volume.reading f buf off
  by_cases beyond : off > bnSize (image io.cache g.disk) f
  · refine iff_of_true ⟨⟨io, ?_, fun j less => absurd less (by omega), fun _ _ _ => rfl⟩, ?_⟩
      (.inl beyond)
    · rw [o2fs_Read]
      simp only [blockSize, size]
      rw [if_neg (by decide), if_pos beyond, Nat.sub_eq_zero_of_le (by omega), min_zero]
      rfl
    · intro b member
      rw [o2fs_ReadBlocks] at member
      simp only [size, if_pos beyond] at member
      cases member
  · rw [or_iff_right beyond]
    have blocks : o2fs_ReadBlocks vn buf off length io = resolvedBlocks vn
        (readLength (bnSize (image io.cache g.disk) f) off length + 1) io buf off
        (readLength (bnSize (image io.cache g.disk) f) off length) := by
      rw [o2fs_ReadBlocks]
      simp only [size, if_neg beyond]
    constructor
    · intro exact_
      by_contra outside
      rw [not_and_or, not_lt, not_lt] at outside
      rcases outside with last | wraps
      · -- the end of a file of 64 blocks
        have reached : 64 ∈ o2fs_ReadBlocks vn buf off length io := by
          rw [blocks, resolvedBlocks, blockVisits]
          simp only [blockSize]
          have index : off / BLOCKSIZE = 64 := by
            unfold BLOCKSIZE at *
            omega
          rw [index]
          exact mem_cons_self
        exact absurd (exact_.blocks 64 reached) (by decide)
      · have whole : readLength (bnSize (image io.cache g.disk) f) off length = length := by
          rw [readLength, if_neg]
          unfold add64 word64 BLOCKSIZE at *
          omega
        rcases wrapping_read volume opened free lengthBound target (by omega) wraps with
          reached | ⟨n, t, ran, negative⟩
        · rw [whole] at blocks
          exact absurd (exact_.blocks 64 (by rw [blocks]; exact reached)) (by decide)
        · obtain ⟨u, returned, _⟩ := exact_.returns
          rw [o2fs_Read] at returned
          simp only [blockSize, size] at returned
          rw [if_neg (by decide), if_neg beyond, whole, ran] at returned
          have same := (Prod.mk.inj (Option.some.inj returned)).1
          omega
    · rintro ⟨inside, small⟩
      obtain ⟨t, ran, delivered⟩ := o2fs_Read_reads volume opened inside small free target
      obtain ⟨fits, less⟩ : off + readLength (bnSize (image io.cache g.disk) f) off length ≤
          bnSize (image io.cache g.disk) f ∧
          readLength (bnSize (image io.cache g.disk) f) off length ≤ length := by
        rw [readLength, add64_of_lt small]
        split <;> omega
      refine ⟨⟨t, ran, delivered.delivered, delivered.elsewhere⟩, ?_⟩
      rw [blocks]
      generalize readLength (bnSize (image io.cache g.disk) f) off length = count at fits less ⊢
      have below := resolvedBlocks_below volume opened free inside
        (show 0 < count → off + count ≤ 64 * BLOCKSIZE by omega)
        (fun address low high => target address low (by omega)) (count + 1) 0 io reading (by omega)
      simpa only [add_zero, Nat.sub_zero] using below

end

theorem o2fs_Mount_volume {bufBase : Nat} {g : Geometry} {s : BufState}
    (coherent : Coherent bufBase everyBlock s) (reads : ∀ n, s.readStatus n = 0)
    (writes : ∀ n, s.writeStatus n = 0) (formatted : Formatted g (image s g.disk))
    (layout : Layout g (image s g.disk)) (sized : Sized g (image s g.disk))
    (left : g.bitmapBlocks + 2 < (unreferenced s).card) :
    ∃ fs root t, o2fs_Mount g.disk s = some (some (fs, root), t) ∧ Volume bufBase g fs t ∧
      Opened g fs t root (sbRootOffset (image s g.disk) 0) ∧
      (∃ e < CACHEENTRIES, (t.entry e).refCount = 0) ∧ ∀ d, image t d = image s d := by
  obtain ⟨fs, root, t, mount, mounted, vfs, disk, held, retained⟩ :=
    o2fs_Mount_mounts coherent reads formatted (by omega)
  refine ⟨fs, root, t, mount, Retained.volume retained mounted writes formatted layout sized,
    ⟨vfs, disk, formatted.root, held⟩, ?_, retained.images⟩
  have some_left := retained.left
  exact exists_unreferenced (show 0 < (unreferenced t).card by omega)

theorem emptyGeometry_mounted (bufBase : Nat) {img : Memory} (formatted : Formatted emptyGeometry img)
    (layout : Layout emptyGeometry img) (sized : Sized emptyGeometry img)
    (node : sbRootOffset img 0 = 2 * BLOCKSIZE) :
    ∃ fs root t, o2fs_Mount 1 (bufCacheInit bufBase (fun _ => 0) (fun _ => img) (fun _ => 0)
        (fun _ => 0)) = some (some (fs, root), t) ∧ Volume bufBase emptyGeometry fs t ∧
      Opened emptyGeometry fs t root (2 * BLOCKSIZE) ∧
      (∃ e < CACHEENTRIES, (t.entry e).refCount = 0) ∧ image t 1 = img := by
  have disk : image (bufCacheInit bufBase (fun _ => 0) (fun _ => img) (fun _ => 0) (fun _ => 0))
      emptyGeometry.disk = img := init_image _ _ _ _ _ _
  obtain ⟨fs, root, t, mount, volume, opened, free, images⟩ := o2fs_Mount_volume
    (g := emptyGeometry) (init_coherent bufBase _ _ _ _) (fun _ => rfl) (fun _ => rfl)
    (by rw [disk]; exact formatted) (by rw [disk]; exact layout)
    (by rw [disk]; exact sized) (by rw [init_unreferenced]; decide)
  rw [disk, node] at opened
  exact ⟨fs, root, t, mount, volume, opened, free, (images 1).trans disk⟩

theorem emptyImage_volume :
    let start := bufCacheInit 0 (fun _ => 0) (fun _ => emptyImage) (fun _ => 0) (fun _ => 0)
    ∃ fs root t, o2fs_Mount 1 start = some (some (fs, root), t) ∧ Volume 0 emptyGeometry fs t ∧
      Opened emptyGeometry fs t root (2 * BLOCKSIZE) ∧
      (∃ e < CACHEENTRIES, (t.entry e).refCount = 0) ∧ image t 1 = emptyImage :=
  emptyGeometry_mounted 0 emptyImage_formatted emptyImage_layout emptyImage_sized (by decide)

/-- The file of three bytes is read from its second byte on. -/
theorem o2fs_read_exact_iff_three_bytes :
    ∃ fs root t, o2fs_Mount 1 (bufCacheInit 0 (fun _ => 0) (fun _ => filesImage) (fun _ => 0)
        (fun _ => 0)) = some (some (fs, root), t) ∧
      bnSize (image t 1) (2 * BLOCKSIZE) = 3 ∧ fileByte (image t 1) (2 * BLOCKSIZE) 1 = 0x32 ∧
      ExactRead 0 pairGeometry root (2 * BLOCKSIZE) (BLOCKSIZE * CACHEENTRIES) 1 100 ⟨t, []⟩ := by
  have disk : image (bufCacheInit 0 (fun _ => 0) (fun _ => filesImage) (fun _ => 0) (fun _ => 0))
      pairGeometry.disk = filesImage := init_image _ _ _ _ _ _
  obtain ⟨fs, root, t, mount, volume, opened, free, images⟩ := o2fs_Mount_volume
    (g := pairGeometry) (init_coherent 0 _ _ _ _) (fun _ => rfl) (fun _ => rfl)
    (by rw [disk]; exact filesImage_formatted) (by rw [disk]; exact filesImage_layout)
    (by rw [disk]; exact filesImage_sized) (by rw [init_unreferenced]; decide)
  have place : sbRootOffset filesImage 0 = 2 * BLOCKSIZE := by decide
  rw [disk, place] at opened
  have same : image t 1 = filesImage := (images 1).trans disk
  refine ⟨fs, root, t, mount, by rw [same]; decide, by rw [same]; decide,
    (o2fs_read_exact_iff volume opened free (by decide) ?_).mpr (.inr ⟨by decide, by decide⟩)⟩
  intro address low _
  right
  omega

/-- A file of 64 blocks, the blocks 3 to 66 of the disk. -/
def fullImage : Memory :=
  let volume := storeLE (storeLE (smallVolume 0) 24 8 128) BLOCKSIZE 9 (2 ^ 67 - 1)
  (List.range 64).foldl (fun img i => storeLE img (directAt (2 * BLOCKSIZE) i) 8 ((3 + i) * BLOCKSIZE))
    (withNode volume (2 * BLOCKSIZE) (64 * BLOCKSIZE) (3 * BLOCKSIZE))

/-- Mount the volume and read at the end of the file: the result, and the blocks resolved. -/
def readAtEnd : Option (Int × List Nat) := do
  let start := bufCacheInit 0 (fun _ => 0) (fun _ => fullImage) (fun _ => 0) (fun _ => 0)
  let (mounted, s) ← o2fs_Mount 1 start
  let (_, root) ← mounted
  let (n, _) ← o2fs_Read root (BLOCKSIZE * CACHEENTRIES) (64 * BLOCKSIZE) 1 ⟨s, []⟩
  return (n, o2fs_ReadBlocks root (BLOCKSIZE * CACHEENTRIES) (64 * BLOCKSIZE) 1 ⟨s, []⟩)

/-- At the end of the largest file there is nothing to read, but the body of the loop runs once and
uses `direct[64]`. -/
theorem o2fs_read_passes_direct :
    sbBlockSize fullImage 0 = BLOCKSIZE ∧ bnSize fullImage (2 * BLOCKSIZE) = 64 * BLOCKSIZE ∧
      (∀ i < 64, bnDirect fullImage (2 * BLOCKSIZE) i = (3 + i) * BLOCKSIZE) ∧
      (∀ n < 67, blockBit fullImage BLOCKSIZE n = true) ∧ readAtEnd = some (0, [64]) := by
  decide +kernel

end BoringOs.O2fs
