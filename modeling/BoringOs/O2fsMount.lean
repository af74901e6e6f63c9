import BoringOs.O2fsAlloc

/-! Mounting a formatted volume and loading its block nodes. -/

namespace BoringOs.O2fs

open ByteMemory BufCache Function

/-! The checks read the same in two windows that match. -/

section

variable {left right : Memory} {start place count : Nat}

section

variable (same : MatchAt left start right place count)
include same

theorem sameBytes_match (bytes : List UInt8) (index : Nat) (inside : index + bytes.length ≤ count) :
    sameBytes left (start + index) bytes = sameBytes right (place + index) bytes := by
  induction bytes generalizing index with
  | nil => rfl
  | cons byte rest ih =>
    rw [List.length_cons] at inside
    rw [sameBytes, sameBytes, same index (by omega), add_assoc, add_assoc,
      ih (index + 1) (by omega)]

theorem superBlockOk_match (enough : 12 ≤ count) :
    superBlockOk left start = superBlockOk right place := by
  have eight : SUPERBLOCK_MAGIC.length = 8 := rfl
  have magic := sameBytes_match same SUPERBLOCK_MAGIC 0 (by omega)
  have major : sbVersionMajor left start = sbVersionMajor right place :=
    loadLE_match same (by omega)
  have minor : sbVersionMinor left start = sbVersionMinor right place :=
    loadLE_match same (by omega)
  rw [superBlockOk, superBlockOk, major, minor]
  exact congrArg (fun b => b && _) magic

theorem bnodeOk_match (enough : 12 ≤ count) : bnodeOk left start = bnodeOk right place := by
  have eight : BNODE_MAGIC.length = 8 := rfl
  have magic := sameBytes_match same BNODE_MAGIC 0 (by omega)
  have major : bnVersionMajor left start = bnVersionMajor right place :=
    loadLE_match same (by omega)
  have minor : bnVersionMinor left start = bnVersionMinor right place :=
    loadLE_match same (by omega)
  rw [bnodeOk, bnodeOk, major, minor]
  exact congrArg (fun b => b && _) magic

end

end

/-- The superblock describes the geometry, and every file is a block node that
`O2FSLoadVNode` accepts. -/
structure Formatted (g : Geometry) (img : Memory) : Prop where
  superblock : superBlockOk img 0 = true
  blockSize : sbBlockSize img 0 = BLOCKSIZE
  bitmapSize : sbBitmapSize img 0 = g.bitmapBlocks
  bitmapOffset : sbBitmapOffset img 0 = g.bitmapOffset
  bitmapEnd : g.bitmapOffset + 16 * BLOCKSIZE < word64
  root : sbRootOffset img 0 ∈ g.files
  nodes : ∀ f ∈ g.files, bnodeOk img f = true

section

variable {bufBase : Nat} {g : Geometry} {s : BufState}

theorem loadBNode_loads (coherent : Coherent bufBase everyBlock s)
    (reads : ∀ n, s.readStatus n = 0) (disk : DiskId) {f : Nat} (aligned : f % BLOCKSIZE = 0)
    (node : bnodeOk (image s disk) f = true) (some_left : 0 < (unreferenced s).card) :
    ∃ e t, loadBNode disk f s = some (0, some e, t) ∧ Held t e disk f ∧ Retained bufBase s t 1 := by
  obtain ⟨e, t, result, takes, retained⟩ :=
    bufCache_Read_retains coherent reads disk aligned some_left
  refine ⟨e, t, ?_, takes.held, retained⟩
  have check : bnodeOk t.memory (bufferOf t e) = true := by
    rw [bufferOf, bnodeOk_match (buffer_match retained.coherent.rep takes.key aligned) (by decide),
      retained.images]
    exact node
  rw [loadBNode, result]
  simp only [Int.lt_irrefl, ↓reduceIte, check]

theorem Geometry.bitmap_lt (g : Geometry) (small : g.bitmapOffset + 16 * BLOCKSIZE < word64)
    {i : Nat} (bound : i < g.bitmapBlocks) : g.bitmapOffset + i * BLOCKSIZE < word64 := by
  have few := g.bitmapBound
  have less : i * BLOCKSIZE ≤ 16 * BLOCKSIZE := Nat.mul_le_mul_right _ (by omega)
  omega

theorem mountBitmap_mounts {sb : EntryId} (small : g.bitmapOffset + 16 * BLOCKSIZE < word64)
    (rounds : Nat) :
    ∀ i bitmap (s : BufState), i ≤ g.bitmapBlocks → g.bitmapBlocks - i < rounds →
      Coherent bufBase everyBlock s → (∀ n, s.readStatus n = 0) → Held s sb g.disk 0 →
      sbBlockSize (image s g.disk) 0 = BLOCKSIZE →
      sbBitmapSize (image s g.disk) 0 = g.bitmapBlocks →
      sbBitmapOffset (image s g.disk) 0 = g.bitmapOffset →
      g.bitmapBlocks - i ≤ (unreferenced s).card →
      (∀ j < i, ∃ e, bitmap j = some e ∧ Held s e g.disk (g.bitmapOffset + j * BLOCKSIZE)) →
      (∀ j, i ≤ j → bitmap j = none) →
      ∃ final t, mountBitmap g.disk sb rounds i bitmap s = some (some final, t) ∧
        Retained bufBase s t (g.bitmapBlocks - i) ∧
        (∀ j < g.bitmapBlocks, ∃ e, final j = some e ∧
          Held t e g.disk (g.bitmapOffset + j * BLOCKSIZE)) ∧
        ∀ j, g.bitmapBlocks ≤ j → final j = none := by
  induction rounds with
  | zero =>
    intro i _ _ _ enough
    omega
  | succ rounds ih =>
    intro i bitmap s inside enough coherent reads superblock blockSize bitmapSize bitmapOffset
      left done rest
    have few := g.bitmapBound
    have fields : sbBitmapSize s.memory (bufferOf s sb) = g.bitmapBlocks ∧
        sbBitmapOffset s.memory (bufferOf s sb) = g.bitmapOffset ∧
        sbBlockSize s.memory (bufferOf s sb) = BLOCKSIZE := by
      refine ⟨?_, ?_, ?_⟩
      · exact (loadLE_image coherent.rep superblock.1 rfl (by decide)).trans bitmapSize
      · exact (loadLE_image coherent.rep superblock.1 rfl (by decide)).trans bitmapOffset
      · exact (loadLE_image coherent.rep superblock.1 rfl (by decide)).trans blockSize
    rw [mountBitmap]
    simp only [fields]
    by_cases last : i < g.bitmapBlocks
    · have fits := g.bitmap_lt small last
      have product : mul64 i BLOCKSIZE = i * BLOCKSIZE :=
        mul64_of_lt (Nat.lt_of_le_of_lt (Nat.le_add_left _ _) fits)
      have sum : add64 g.bitmapOffset (i * BLOCKSIZE) = g.bitmapOffset + i * BLOCKSIZE :=
        add64_of_lt fits
      have aligned := g.reserved_aligned (.bitmap i last)
      obtain ⟨e, t, result, takes, retained⟩ :=
        bufCache_Read_retains coherent reads g.disk aligned (by omega)
      have leftAfter := retained.left
      rw [if_pos last, if_neg (by omega), product, sum, result]
      simp only [Int.lt_irrefl, ↓reduceIte]
      obtain ⟨final, u, ran, more, held, ended⟩ := ih (i + 1) (update bitmap i (some e)) t
        (by omega) (by omega) retained.coherent retained.reads (retained.kept _ _ _ superblock)
        (by rw [retained.images]; exact blockSize) (by rw [retained.images]; exact bitmapSize)
        (by rw [retained.images]; exact bitmapOffset) (by omega)
        (by
          intro j less
          by_cases here : j = i
          · rw [here, update_self]
            exact ⟨e, rfl, takes.held⟩
          · obtain ⟨x, entry, holds⟩ := done j (by omega)
            rw [update_of_ne here]
            exact ⟨x, entry, retained.kept _ _ _ holds⟩)
        (by
          intro j beyond
          rw [update_of_ne (by omega)]
          exact rest j (by omega))
      have total : g.bitmapBlocks - i = 1 + (g.bitmapBlocks - (i + 1)) := by omega
      rw [total]
      exact ⟨final, u, ran, retained.trans more, held, ended⟩
    · have complete : i = g.bitmapBlocks := by omega
      rw [if_neg last, complete, Nat.sub_self]
      rw [complete] at done rest
      exact ⟨bitmap, s, rfl, .refl coherent reads, done, rest⟩

theorem o2fs_Mount_mounts (coherent : Coherent bufBase everyBlock s)
    (reads : ∀ n, s.readStatus n = 0) (formatted : Formatted g (image s g.disk))
    (left : g.bitmapBlocks + 2 ≤ (unreferenced s).card) :
    ∃ fs root t, o2fs_Mount g.disk s = some (some (fs, root), t) ∧ Mounted g fs t ∧
      root.vfs = fs ∧ root.disk = g.disk ∧
      Held t root.fsptr g.disk (sbRootOffset (image s g.disk) 0) ∧
      Retained bufBase s t (g.bitmapBlocks + 2) := by
  obtain ⟨sb, first, result, takes, retained⟩ :=
    bufCache_Read_retains coherent reads g.disk (show 0 % BLOCKSIZE = 0 from rfl) (by omega)
  have leftFirst := retained.left
  have accepted : superBlockOk first.memory (bufferOf first sb) = true := by
    rw [bufferOf, superBlockOk_match (buffer_match retained.coherent.rep takes.key rfl) (by decide),
      retained.images]
    exact formatted.superblock
  have few := g.bitmapBound
  obtain ⟨bitmap, second, loop, more, held, ended⟩ := mountBitmap_mounts formatted.bitmapEnd 17 0
    (fun _ => none) first (by omega) (by omega) retained.coherent retained.reads takes.held
    (by rw [retained.images]; exact formatted.blockSize)
    (by rw [retained.images]; exact formatted.bitmapSize)
    (by rw [retained.images]; exact formatted.bitmapOffset) (by omega)
    (fun j less => absurd less (by omega)) (fun _ _ => rfl)
  have leftSecond := more.left
  have images : image second g.disk = image s g.disk := by rw [more.images, retained.images]
  have superblock : Held second sb g.disk 0 := more.kept _ _ _ takes.held
  have rootOffset : sbRootOffset second.memory (bufferOf second sb) =
      sbRootOffset (image s g.disk) 0 := by
    rw [← images]
    exact loadLE_image more.coherent.rep superblock.1 rfl (by decide)
  have blockSize : sbBlockSize second.memory (bufferOf second sb) = BLOCKSIZE := by
    rw [← formatted.blockSize, ← images]
    exact loadLE_image more.coherent.rep superblock.1 rfl (by decide)
  obtain ⟨e, t, loaded, rootHeld, last⟩ := loadBNode_loads more.coherent more.reads g.disk
    (g.fileAligned _ formatted.root) (by rw [images]; exact formatted.nodes _ formatted.root)
    (by omega)
  have total : g.bitmapBlocks + 2 = 1 + (g.bitmapBlocks - 0) + 1 := by omega
  refine ⟨⟨g.disk, sb, sbRootOffset (image s g.disk) 0, BLOCKSIZE, bitmap⟩, ⟨g.disk, e,
    ⟨g.disk, sb, sbRootOffset (image s g.disk) 0, BLOCKSIZE, bitmap⟩⟩, t, ?_, ?_, rfl, rfl,
    rootHeld, ?_⟩
  · rw [o2fs_Mount, result]
    simp only [Int.lt_irrefl, ↓reduceIte, accepted, loop, rootOffset, blockSize, o2fs_GetRoot,
      loaded, Option.map_some]
  · refine ⟨rfl, rfl, last.kept _ _ _ superblock, ?_, ended⟩
    intro i bound
    obtain ⟨x, entry, holds⟩ := held i bound
    exact ⟨x, entry, last.kept _ _ _ holds⟩
  · rw [total]
    exact (retained.trans more).trans last

end

end BoringOs.O2fs
