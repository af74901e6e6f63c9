import BoringOs.NewfsImage

/-! The whole run of `newfs_o2fs`: superblock, bitmap, and the tree of the manifest. -/

namespace BoringOs.Newfs

open List Nat

variable {s : State} {env : Env} {entries : Entries} {source : List UInt8} {megabytes : Nat}

open ByteMemory BufCache O2fs

theorem skipBitmap_skips (count : Nat) :
    ∃ t, skipBitmap count s = some t ∧ t.text = s.text ∧ t.seek = s.seek + count * BLOCKSIZE := by
  induction count with
  | zero => exact ⟨s, rfl, rfl, by rw [Nat.zero_mul, add_zero]⟩
  | succ count ih =>
    obtain ⟨u, skipped, text, seek⟩ := ih
    obtain ⟨t, result, appended⟩ := appendBlock_appends u zerobuf
      (show blockSize ≤ BLOCKSIZE from le_rfl)
    refine ⟨t, ?_, appended.text.trans text, ?_⟩
    · rw [skipBitmap, range_succ, foldlM_append]
      rw [skipBitmap] at skipped
      rw [skipped]
      simp only [foldlM_cons, foldlM_nil, result, Option.map_some, Option.bind_eq_bind,
        Option.bind_some, Option.pure_def]
    · rw [appended.seek, seek, succ_mul, add_assoc]

theorem addRoot_adds (spelled : Spelled (manifestTokens entries) s.text) (listable : entries.Listable)
    (valid : entries.Valid env)
    (small : s.seek + (entries.blocks env + 2) * BLOCKSIZE < word64) :
    ∃ t, addRoot env s = some (s.seek + (entries.blocks env + 1) * BLOCKSIZE, t) ∧
      t.seek = s.seek + (entries.blocks env + 2) * BLOCKSIZE ∧
      Holds env t.disk entries s.seek ∧
      DirAt t.disk (s.seek + entries.blocks env * BLOCKSIZE) (entries.listing env s.seek) := by
  obtain ⟨afterDir, tokenDir, spelledSlash⟩ := getToken_cons spelled
  obtain ⟨afterSlash, tokenSlash, spelledTree⟩ :=
    getToken_cons (s := { s with text := afterDir }) spelledSlash
  have pending : Pending env entries [] env.heap [] { s with text := afterSlash } := by
    refine ⟨spelledTree, valid, ?_, by simp, ?_, small⟩
    · rw [length_nil, zero_add]
      exact listable.few
    · intro k name offset found
      simp at found
  have enough : entries.tokens.length < afterSlash.length + 1 := by
    have length := spelledTree.length_le
    rw [length_append] at length
    omega
  obtain ⟨t, result, written⟩ := addDirectory_adds env entries [] _ _ [] _ pending enough
  rw [length_nil] at result
  have seek := written.extended.seek
  refine ⟨{ t with text := [] }, ?_, seek, written.holds, ?_⟩
  · rw [addRoot, tokenDir]
    simp only [show classify DIR = Token.dir from rfl, tokenSlash,
      show classify [SLASH] = Token.string from rfl, ↓reduceIte, result,
      getToken_nil written.spelled]
  · exact written.directory

theorem bitmapBytes_exact (off n : Nat) :
    (bitmapBytes off (n / 8)).toNat.testBit (n % 8) = decide (n < off) := by
  have lastByte : ∀ m : Fin 8, ∀ k : Fin 8,
      ((range m).foldl (fun byte i => byte ||| UInt8.ofNat (2 ^ i)) (0 : UInt8)).toNat.testBit k =
        decide (k < m) := by
    decide
  have full : ∀ k : Fin 8, (0xFF : UInt8).toNat.testBit k = true := by decide
  rw [bitmapBytes]
  by_cases whole : n / 8 < off / 8
  · rw [if_pos whole, decide_eq_true (by omega)]
    exact full ⟨n % 8, mod_lt _ (by omega)⟩
  · by_cases here : n / 8 = off / 8
    · rw [if_neg whole, if_pos here]
      refine (lastByte ⟨off % 8, mod_lt _ (by omega)⟩ ⟨n % 8, mod_lt _ (by omega)⟩).trans ?_
      simp only [Fin.mk_lt_mk, decide_eq_decide]
      omega
    · rw [if_neg whole, if_neg here, decide_eq_false (by omega)]
      exact zero_testBit _

theorem blockBitmap_writes {count : Nat} (few : s.seek / BLOCKSIZE ≤ 8 * MAXBLOCKSIZE)
    (bound : BLOCKSIZE * count ≤ MAXBLOCKSIZE) :
    ∃ after, blockBitmap count s = some after ∧
      (∀ index < BLOCKSIZE * count,
        after (BLOCKSIZE + index) = bitmapBytes (s.seek / BLOCKSIZE) index) ∧
      ∀ address, BLOCKSIZE + BLOCKSIZE * count ≤ address → after address = s.disk address := by
  have size : blockSize = BLOCKSIZE := rfl
  rw [blockBitmap, size, if_pos ⟨few, bound⟩]
  clear bound
  induction count with
  | zero => exact ⟨s.disk, rfl, fun index less => by omega, fun _ _ => rfl⟩
  | succ count ih =>
    obtain ⟨before, written, bits, above⟩ := ih
    obtain ⟨after, flushed, bytes, _, outside⟩ := flushBlock_flushes before
      (fun index => bitmapBytes (s.seek / BLOCKSIZE) (BLOCKSIZE * count + index))
      (BLOCKSIZE + BLOCKSIZE * count) le_rfl
    refine ⟨after, ?_, ?_, ?_⟩
    · rw [range_succ, foldlM_append, written]
      simp only [foldlM_cons, foldlM_nil, flushed, Option.bind_eq_bind, Option.bind_some,
        Option.pure_def]
    · intro index less
      rw [mul_succ] at less
      by_cases old : index < BLOCKSIZE * count
      · rw [outside _ (by omega)]
        exact bits index old
      · have here := bytes (index - BLOCKSIZE * count) (by omega)
        rw [Nat.add_sub_cancel' (by omega)] at here
        rw [← here]
        congr 1
        omega
    · intro address low
      rw [mul_succ] at low
      rw [outside _ (by omega)]
      exact above address (by omega)

section

variable {diskSize bitmapSize root : Nat}

theorem superblockBytes_ok : superBlockOk (superblockBytes diskSize bitmapSize root) 0 = true := by
  have header : MatchAt (superblockBytes diskSize bitmapSize root) 0 (storeLE (storeLE
      (storeBytes zerobuf 0 SUPERBLOCK_MAGIC) 8 2 O2FS_VERSION_MAJOR) 10 2 O2FS_VERSION_MINOR) 0
      12 := by
    intro index inside
    rw [superblockBytes, storeLE_outside _ _ _ _ _ (by omega), storeLE_outside _ _ _ _ _ (by omega),
      storeLE_outside _ _ _ _ _ (by omega), storeLE_outside _ _ _ _ _ (by omega),
      storeLE_outside _ _ _ _ _ (by omega)]
  rw [superBlockOk_match header le_rfl]
  decide

theorem superblockBytes_blockSize :
    sbBlockSize (superblockBytes diskSize bitmapSize root) 0 = BLOCKSIZE := by
  rw [sbBlockSize, superblockBytes, loadLE_storeLE_apart _ _ _ _ _ _ (by omega),
    loadLE_storeLE_apart _ _ _ _ _ _ (by omega), loadLE_storeLE_apart _ _ _ _ _ _ (by omega)]
  exact loadLE_storeLE _ _ 8 blockSize (by decide)

theorem superblockBytes_bitmapSize (small : bitmapSize < word64) :
    sbBitmapSize (superblockBytes diskSize bitmapSize root) 0 = bitmapSize := by
  rw [sbBitmapSize, superblockBytes, loadLE_storeLE_apart _ _ _ _ _ _ (by omega),
    loadLE_storeLE_apart _ _ _ _ _ _ (by omega)]
  exact loadLE_storeLE _ _ 8 bitmapSize small

theorem superblockBytes_bitmapOffset :
    sbBitmapOffset (superblockBytes diskSize bitmapSize root) 0 = BLOCKSIZE := by
  rw [sbBitmapOffset, superblockBytes, loadLE_storeLE_apart _ _ _ _ _ _ (by omega)]
  exact loadLE_storeLE _ _ 8 blockSize (by decide)

theorem superblockBytes_root (small : root < word64) :
    sbRootOffset (superblockBytes diskSize bitmapSize root) 0 = root := by
  rw [sbRootOffset, superblockBytes]
  exact loadLE_storeLE _ _ 8 root small

end

/-- A manifest that makes a volume: valid names and files, and blocks that fit the disk
and the first block of the bitmap. -/
structure Makeable (env : Env) (megabytes : Nat) (entries : Entries) (source : List UInt8) : Prop where
  spelled : Spelled (manifestTokens entries) source
  listable : entries.Listable
  valid : entries.Valid env
  many : 8 < 1 + bitmapSizeOf (diskSizeOf megabytes) + (entries.blocks env + 2)
  few : 1 + bitmapSizeOf (diskSizeOf megabytes) + (entries.blocks env + 2) < BLOCKSIZE
  fits : (1 + bitmapSizeOf (diskSizeOf megabytes) + (entries.blocks env + 2)) * BLOCKSIZE ≤
    diskSizeOf megabytes

def treeStart (count : Nat) : Nat := BLOCKSIZE + count * BLOCKSIZE

structure Made (env : Env) (count : Nat) (entries : Entries) (img : Memory) : Prop where
  superblock : superBlockOk img 0 = true
  blockSize : sbBlockSize img 0 = BLOCKSIZE
  bitmapSize : sbBitmapSize img 0 = count
  bitmapOffset : sbBitmapOffset img 0 = BLOCKSIZE
  root : sbRootOffset img 0 = treeStart count + (entries.blocks env + 1) * BLOCKSIZE
  bits : ∀ n < 1 + count + (entries.blocks env + 2), blockBit img BLOCKSIZE n = true
  clear : ∀ n < 8 * (BLOCKSIZE * count), 1 + count + (entries.blocks env + 2) ≤ n →
    blockBit img BLOCKSIZE n = false
  holds : Holds env img entries (treeStart count)
  directory : DirAt img (treeStart count + entries.blocks env * BLOCKSIZE)
    (entries.listing env (treeStart count))

theorem Makeable.bitmap (makeable : Makeable env megabytes entries source) :
    0 < bitmapSizeOf (diskSizeOf megabytes) := by
  have large : 8 * BLOCKSIZE ≤ diskSizeOf megabytes :=
    Nat.le_trans (Nat.mul_le_mul_right _ (Nat.le_of_lt makeable.many)) makeable.fits
  unfold bitmapSizeOf blockSize
  unfold BLOCKSIZE at large
  omega

theorem Made.finish (makeable : Makeable env megabytes entries source)
    (bound : bitmapSizeOf (diskSizeOf megabytes) ≤ 4096)
    (seek : s.seek = treeStart (bitmapSizeOf (diskSizeOf megabytes)) +
      (entries.blocks env + 2) * BLOCKSIZE)
    (holds : Holds env s.disk entries (treeStart (bitmapSizeOf (diskSizeOf megabytes))))
    (directory : DirAt s.disk (treeStart (bitmapSizeOf (diskSizeOf megabytes)) +
        entries.blocks env * BLOCKSIZE)
      (entries.listing env (treeStart (bitmapSizeOf (diskSizeOf megabytes))))) :
    ∃ disk img, blockBitmap (bitmapSizeOf (diskSizeOf megabytes)) s = some disk ∧
      flushBlock disk 0 (superblockBytes (diskSizeOf megabytes)
        (bitmapSizeOf (diskSizeOf megabytes)) (treeStart (bitmapSizeOf (diskSizeOf megabytes)) +
          (entries.blocks env + 1) * BLOCKSIZE)) SUPERBLOCK_SIZE = some img ∧
      Made env (bitmapSizeOf (diskSizeOf megabytes)) entries img := by
  have many := makeable.many
  have few := makeable.few
  have some_bits := makeable.bitmap
  generalize bitmapSizeOf (diskSizeOf megabytes) = count at *
  have total : s.seek / BLOCKSIZE = 1 + count + (entries.blocks env + 2) := by
    rw [seek, treeStart]
    unfold BLOCKSIZE
    omega
  have inside : BLOCKSIZE * count ≤ MAXBLOCKSIZE := by
    unfold BLOCKSIZE MAXBLOCKSIZE
    omega
  rw [← total] at few
  have small : treeStart count + (entries.blocks env + 1) * BLOCKSIZE < word64 := by
    rw [total] at few
    unfold treeStart word64
    unfold BLOCKSIZE at *
    omega
  obtain ⟨disk, written, bits, above⟩ := blockBitmap_writes
    (show s.seek / BLOCKSIZE ≤ 8 * MAXBLOCKSIZE by unfold BLOCKSIZE MAXBLOCKSIZE at *; omega) inside
  obtain ⟨img, flushed, bytes, _, outside⟩ := flushBlock_flushes disk
    (superblockBytes (diskSizeOf megabytes) count
      (treeStart count + (entries.blocks env + 1) * BLOCKSIZE)) 0
    (show SUPERBLOCK_SIZE ≤ BLOCKSIZE by decide)
  have header : MatchAt img 0 (superblockBytes (diskSizeOf megabytes) count
      (treeStart count + (entries.blocks env + 1) * BLOCKSIZE)) 0 144 := by
    intro index less
    rw [bytes index less, zero_add]
  have kept : ∀ address, treeStart count ≤ address → img address = s.disk address := by
    intro address low
    rw [treeStart, mul_comm] at low
    rw [outside _ (by omega), above _ low]
  refine ⟨disk, img, written, flushed, ?_, ?_, ?_, ?_, ?_, ?_, ?_, ?_, ?_⟩
  · rw [superBlockOk_match header (by omega)]
    exact superblockBytes_ok
  · exact (loadLE_match header (by omega)).trans superblockBytes_blockSize
  · exact (loadLE_match header (by omega)).trans
      (superblockBytes_bitmapSize (lt_of_le_of_lt bound (by decide)))
  · exact (loadLE_match header (by omega)).trans superblockBytes_bitmapOffset
  · exact (loadLE_match header (by omega)).trans (superblockBytes_root small)
  · intro n below
    rw [← total] at below
    have place : n / 8 < BLOCKSIZE * count :=
      calc n / 8 ≤ n := Nat.div_le_self n 8
        _ < BLOCKSIZE := Nat.lt_trans below few
        _ ≤ BLOCKSIZE * count := Nat.le_mul_of_pos_right BLOCKSIZE some_bits
    rw [blockBit, outside _ (by omega), bits _ place]
    rw [bitmapBytes_exact, decide_eq_true below]
  · intro n inside above
    rw [← total] at above
    rw [blockBit, outside _ (by omega), bits _ (by omega), bitmapBytes_exact]
    exact decide_eq_false (Nat.not_lt_of_le above)
  · exact holds.keep makeable.valid (fun address low _ => kept address low)
  · apply directory.keep
    · rw [Entries.listing_length]
      exact makeable.listable.few
    · exact Entries.listing_short makeable.valid _
    · intro address low _
      exact kept address (by omega)

theorem writeVolume_eq {diskSize bitmapSize root : Nat} {fresh : Bool}
    {disk start bitmap : Memory} {s t : State} (prepared : sizeDisk diskSize fresh disk = some start)
    (skipped : skipBitmap bitmapSize ⟨start, blockSize, source, 0⟩ = some s)
    (added : addRoot env s = some (root, t)) (written : blockBitmap bitmapSize t = some bitmap) :
    writeVolume env diskSize bitmapSize fresh (some source) disk =
      flushBlock bitmap 0 (superblockBytes diskSize bitmapSize root) SUPERBLOCK_SIZE := by
  simp only [writeVolume, addManifest, prepared, Option.getD_some, skipped, added, written]

theorem newfs_makes (makeable : Makeable env megabytes entries source)
    (bound : bitmapSizeOf (diskSizeOf megabytes) ≤ 4096) (fresh : Bool) (disk : Memory) :
    ∃ img, newfs env megabytes fresh (some source) disk = some img ∧
      Made env (bitmapSizeOf (diskSizeOf megabytes)) entries img := by
  have size : blockSize = BLOCKSIZE := rfl
  have fits := makeable.fits
  have many := makeable.many
  have large : BLOCKSIZE ≤ diskSizeOf megabytes :=
    le_trans (Nat.le_mul_of_pos_left BLOCKSIZE (by omega)) fits
  have positive : diskSizeOf megabytes ≠ 0 := by
    have := blockSize_pos
    omega
  have prepared : ∃ start, sizeDisk (diskSizeOf megabytes) fresh disk = some start := by
    cases fresh with
    | false => exact ⟨disk, rfl⟩
    | true =>
      obtain ⟨start, flushed, _⟩ := flushBlock_flushes disk zerobuf (diskSizeOf megabytes - BLOCKSIZE) le_rfl
      rw [sizeDisk, if_pos rfl, if_neg positive, size]
      exact ⟨start, flushed⟩
  obtain ⟨start, prepared⟩ := prepared
  obtain ⟨s, skipped, text, seek⟩ := skipBitmap_skips (bitmapSizeOf (diskSizeOf megabytes))
    (s := ⟨start, blockSize, source, 0⟩)
  have begins : s.seek = treeStart (bitmapSizeOf (diskSizeOf megabytes)) := seek
  have small : s.seek + (entries.blocks env + 2) * BLOCKSIZE < word64 := by
    have few := makeable.few
    rw [begins]
    unfold treeStart word64
    unfold BLOCKSIZE at *
    omega
  obtain ⟨t, added, ends, holds, directory⟩ := addRoot_adds (s := s)
    (by rw [text]; exact makeable.spelled) makeable.listable makeable.valid small
  rw [begins] at added ends holds directory
  obtain ⟨written, img, bitmap, superblock, made⟩ := Made.finish makeable bound ends holds directory
  refine ⟨img, ?_, made⟩
  rw [newfs, writeVolume_eq prepared skipped added bitmap]
  exact superblock

end BoringOs.Newfs
