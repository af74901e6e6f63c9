import BoringOs.O2fsExact
import Mathlib.Data.Nat.Nth

/-! The bytes between the old end of a file and a write behind it. -/

namespace BoringOs.O2fs

open ByteMemory BufCache

/-- The block that slot `i` names after a write behind the end: its own, or the clear bit whose turn
it is. -/
noncomputable def holder (g : Geometry) (img : Memory) (f i : Nat) : Nat :=
  if bnDirect img f i = 0 then
    Nat.nth (Clear g img) (emptySlots img f (blockCeil (bnSize img f)) i).card * BLOCKSIZE
  else bnDirect img f i

section

variable {bufBase : Nat} {g : Geometry} {fs : VFS} {vn : VNode} {f : Nat} {io : IoState}
  {buf off length : Nat}

theorem GrownTo.pointer {s t : BufState} {filesz : Nat} (grown : GrownTo bufBase g fs f filesz s t)
    (sized : Sized g (image s g.disk)) (member : f ∈ g.files) {i : Nat} (below : i < blockCeil filesz)
    (slot : i < 64) : bnDirect (image t g.disk) f i = holder g (image s g.disk) f i := by
  unfold holder
  split
  · rename_i empty
    have behind : blockCeil (bnSize (image s g.disk) f) ≤ i := by
      by_contra inside
      exact (sized f member).2 i (lt_blockCeil.mp (by omega)) empty
    obtain ⟨n, _, clear, rank, pointer⟩ := grown.taken i behind below empty
    rw [pointer, ← rank, Nat.nth_count clear]
  · rename_i present
    exact grown.resized.pointers i slot present

theorem gap_bytes (volume : Volume bufBase g fs io.cache) (opened : Opened g fs io.cache vn f)
    {m t : BufState} (bound : off + length ≤ 64 * BLOCKSIZE)
    (grown : GrownTo bufBase g fs f (off + length) io.cache m)
    (writing : Writing bufBase g m f buf off length t) {p : Nat} (high : p < off) :
    fileByte (image t g.disk) f p =
      image io.cache g.disk (holder g (image io.cache g.disk) f (p / BLOCKSIZE) + p % BLOCKSIZE) := by
  have number := Nat.div_add_mod' p BLOCKSIZE
  have slot : p / BLOCKSIZE < 64 := by
    unfold BLOCKSIZE at *
    omega
  obtain ⟨_, present⟩ := grown.volume.present (i := p) opened.member (by rw [grown.resized.size]; omega)
  obtain ⟨aligned, unreserved⟩ := grown.volume.layout.pointer opened.member slot present
  rw [writing.unwritten f opened.member p (by omega) present (fun _ => .inl high), fileByte,
    grown.resized.data _ aligned unreserved _ (blockIndex_lt p),
    grown.pointer volume.sized opened.member (lt_blockCeil.mpr (by omega)) slot]

/-- After a successful write behind the end, a byte before it, in the gap too, reads as 0 exactly when
the block that holds it then had a 0 there before. -/
theorem holes_read_zero_iff (volume : Volume bufBase g fs io.cache)
    (opened : Opened g fs io.cache vn f) (positive : 1 ≤ length)
    (behind : bnSize (image io.cache g.disk) f < off) (bound : off + length ≤ 64 * BLOCKSIZE)
    (free : ∃ e < CACHEENTRIES, (io.cache.entry e).refCount = 0)
    (source : ∀ address, buf ≤ address → address < buf + length → Outside bufBase address)
    {n : Int} {t : IoState} (ran : o2fs_Write vn buf off length io = some (n, t)) (success : 0 ≤ n)
    {target : Nat} (outside : Outside bufBase target) {p : Nat} (high : p < off) :
    (∃ u, o2fs_Read vn target p 1 t = some (1, u) ∧ u.cache.memory target = 0) ↔
      image io.cache g.disk
        (holder g (image io.cache g.disk) f (p / BLOCKSIZE) + p % BLOCKSIZE) = 0 := by
  have larger : bnSize (image io.cache g.disk) f < off + length := by omega
  rcases o2fsGrowVNode_cases volume opened bound larger with
    ⟨_, m, grew, grown⟩ | ⟨_, m, failed, _⟩
  · obtain ⟨after, wrote, writing⟩ :=
      o2fs_Write_grows volume opened positive bound larger free source grew grown
    obtain ⟨_, rfl⟩ := Prod.mk.inj (Option.some.inj (ran.symm.trans wrote))
    have steady : Steady io.cache t.cache := (Steady.of_entry grown.entries).trans writing.steady
    have size : bnSize (image t.cache g.disk) f = off + length := by
      rw [bnSize_agree (writing.reserved f (.file f opened.member)), grown.resized.size]
    have apart : ∀ address, target ≤ address → address < target + 1 → Outside bufBase address := by
      intro address above below
      obtain rfl : address = target := by omega
      exact outside
    obtain ⟨u, read, delivered⟩ := o2fs_Read_reads (writing.volume grown.volume)
      (opened.keep steady.kept) (show p < 64 * BLOCKSIZE by omega)
      (by unfold word64 BLOCKSIZE at *; omega) (steady.free free) apart
    have one : min 1 (bnSize (image t.cache g.disk) f - p) = 1 := by
      rw [size]
      omega
    rw [one] at read delivered
    have byte := delivered.delivered 0 (by omega)
    rw [add_zero, add_zero, gap_bytes volume opened bound grown writing high] at byte
    rw [← byte]
    constructor
    · rintro ⟨v, again, zero⟩
      obtain ⟨_, rfl⟩ := Prod.mk.inj (Option.some.inj (again.symm.trans read))
      exact zero
    · intro zero
      exact ⟨u, read, zero⟩
  · -- without room the write fails
    rw [o2fs_Write, if_neg (volume.blockSize_ne opened), add64_sum bound, opened.size volume.coherent.rep, if_pos larger, failed] at ran
    dsimp only at ran
    rw [if_pos (by decide)] at ran
    cases ran
    exact absurd success (by decide)

end

theorem holes_read_zero_iff_second_byte :
    ∃ root s t, o2fs_Write root (BLOCKSIZE * CACHEENTRIES) 1 1 ⟨s, []⟩ = some (1, t) ∧
      image s 1 = emptyImage ∧
      ((∃ u, o2fs_Read root (BLOCKSIZE * CACHEENTRIES) 0 1 t = some (1, u) ∧
        u.cache.memory (BLOCKSIZE * CACHEENTRIES) = 0) ↔
      image s 1 (holder emptyGeometry (image s 1) (2 * BLOCKSIZE) 0 + 0) = 0) := by
  obtain ⟨fs, root, s, _, volume, opened, free, images⟩ := emptyImage_volume
  have disk : image s emptyGeometry.disk = emptyImage := images
  have size : bnSize (image s emptyGeometry.disk) (2 * BLOCKSIZE) = 0 := by
    rw [disk]
    decide
  have source : ∀ address, BLOCKSIZE * CACHEENTRIES ≤ address →
      address < BLOCKSIZE * CACHEENTRIES + 1 → Outside 0 address := by
    intro address low _
    right
    omega
  have mounted : Volume 0 emptyGeometry fs (IoState.mk s []).cache := volume
  obtain ⟨t, ran, _⟩ := o2fs_Write_stores mounted opened le_rfl
    (show 1 + 1 ≤ 64 * BLOCKSIZE by decide) free (by
      show (emptySlots (image s emptyGeometry.disk) _ (blockCeil (bnSize _ _)) _).card ≤ _
      rw [size, disk]
      decide) source
  refine ⟨root, s, t, ran, images, ?_⟩
  exact holes_read_zero_iff mounted opened le_rfl (by rw [size]; omega)
    (show 1 + 1 ≤ 64 * BLOCKSIZE by decide) free source ran (by decide)
    (source _ le_rfl (by omega)) (by omega)

/-- Block 3 is free, but the disk still has a byte of its last use. -/
def usedBlockImage : Memory := Function.update emptyImage (3 * BLOCKSIZE) 9

/-- Write the second byte of the empty file and read the first. -/
def gapRun : Option (Int × Int × UInt8) := do
  let buf := BLOCKSIZE * CACHEENTRIES
  let start := bufCacheInit 0 (fun _ => 0) (fun _ => usedBlockImage) (fun _ => 0) (fun _ => 0)
  let (mounted, s) ← o2fs_Mount 1 start
  let (_, root) ← mounted
  let (written, io) ← o2fs_Write root buf 1 1 ⟨s, []⟩
  let (count, io) ← o2fs_Read root buf 0 1 io
  return (written, count, io.cache.memory buf)

/-- The gap shows what the block held before it was allocated. -/
theorem gap_shows_stale_block : bnSize usedBlockImage (2 * BLOCKSIZE) = 0 ∧
    blockBit usedBlockImage BLOCKSIZE 3 = false ∧ gapRun = some (1, 1, 9) := by
  decide +kernel

end BoringOs.O2fs
