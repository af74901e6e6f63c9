import BoringOs.O2fsMount
import BoringOs.O2fsStore

/-! Sequences of `O2FS_Read` and `O2FS_Write` calls. A session remembers the last value written to
each byte of each file, and the calls read these values back. -/

namespace BoringOs.O2fs

open ByteMemory BufCache Option

structure Session where
  io : IoState
  latest : Nat → Nat → Option UInt8

inductive FileOp where
  | load (f : Nat)
  | read (vn : VNode) (f buf off length : Nat)
  | write (vn : VNode) (f buf off length : Nat)

/-- A read that does not wrap around, into memory outside the cache. -/
structure ReadRequest (bufBase : Nat) (g : Geometry) (fs : VFS) (s : BufState) (vn : VNode)
  (f buf off length : Nat) : Prop where
  opened : Opened g fs s vn f
  inside : off < 64 * BLOCKSIZE
  small : off + length < word64
  free : 0 < (unreferenced s).card
  target : ∀ address, buf ≤ address → address < buf + length → Outside bufBase address

structure WriteRequest (bufBase : Nat) (g : Geometry) (fs : VFS) (s : BufState) (vn : VNode)
  (f buf off length : Nat) : Prop where
  opened : Opened g fs s vn f
  positive : 1 ≤ length
  bound : off + length ≤ 64 * BLOCKSIZE
  free : 0 < (unreferenced s).card
  room : (emptySlots (image s g.disk) f (blockCeil (bnSize (image s g.disk) f))
    (blockCeil (off + length))).card ≤ (freeBlocks g (image s g.disk)).card
  source : ∀ address, buf ≤ address → address < buf + length → Outside bufBase address

def Session.record (s : Session) (f buf off length : Nat) : Nat → Nat → Option UInt8 :=
  fun h i =>
    if h = f ∧ off ≤ i ∧ i < off + length then some (s.io.cache.memory (buf + (i - off)))
    else s.latest h i

inductive FileStep (bufBase : Nat) (g : Geometry) (fs : VFS) :
  Session → FileOp → Session → Prop where
  | load (s : Session) (f : Nat) (vn : VNode) (t : BufState) (member : f ∈ g.files)
      (free : 0 < (unreferenced s.io.cache).card)
      (loaded : o2fsLoadVNode fs f s.io.cache = some (some vn, t)) :
      FileStep bufBase g fs s (.load f) ⟨{ s.io with cache := t }, s.latest⟩
  | read (s : Session) (vn : VNode) (f buf off length : Nat) (result : Int) (t : IoState)
      (request : ReadRequest bufBase g fs s.io.cache vn f buf off length)
      (ran : o2fs_Read vn buf off length s.io = some (result, t)) :
      FileStep bufBase g fs s (.read vn f buf off length) ⟨t, s.latest⟩
  | write (s : Session) (vn : VNode) (f buf off length : Nat) (result : Int) (t : IoState)
      (request : WriteRequest bufBase g fs s.io.cache vn f buf off length)
      (ran : o2fs_Write vn buf off length s.io = some (result, t)) :
      FileStep bufBase g fs s (.write vn f buf off length) ⟨t, s.record f buf off length⟩

structure SessionInv (bufBase : Nat) (g : Geometry) (fs : VFS) (s : Session) : Prop where
  volume : Volume bufBase g fs s.io.cache
  latest : ∀ f i value, s.latest f i = some value → f ∈ g.files ∧
    i < bnSize (image s.io.cache g.disk) f ∧ fileByte (image s.io.cache g.disk) f i = value

section

variable {bufBase : Nat} {g : Geometry} {fs : VFS} {s : BufState}

theorem o2fsLoadVNode_opens (volume : Volume bufBase g fs s) {f : Nat} (member : f ∈ g.files)
    (free : 0 < (unreferenced s).card) {vn : VNode} {t : BufState}
    (loaded : o2fsLoadVNode fs f s = some (some vn, t)) :
    Opened g fs t vn f ∧ Retained bufBase s t 1 := by
  have aligned := g.fileAligned f member
  obtain ⟨e, u, result, takes, retained⟩ :=
    bufCache_Read_retains volume.coherent volume.reads fs.disk aligned free
  rw [o2fsLoadVNode, loadBNode, result] at loaded
  simp only [Int.lt_irrefl, ↓reduceIte] at loaded
  by_cases node : bnodeOk u.memory (bufferOf u e) = true
  · simp only [node, ↓reduceIte, map_some, some.injEq, Prod.mk.injEq] at loaded
    obtain ⟨rfl, rfl⟩ := loaded
    have held := takes.held
    rw [volume.mounted.disk] at held
    exact ⟨⟨rfl, volume.mounted.disk, member, held⟩, retained⟩
  · simp [node] at loaded

theorem fileStep_inv {s t : Session} {op : FileOp} (inv : SessionInv bufBase g fs s)
    (step : FileStep bufBase g fs s op t) : SessionInv bufBase g fs t := by
  cases step with
  | load f vn u member free loaded =>
    obtain ⟨_, retained⟩ := o2fsLoadVNode_opens inv.volume member free loaded
    refine ⟨inv.volume.of_retained retained, ?_⟩
    intro h i value found
    rw [retained.images]
    exact inv.latest h i value found
  | read vn f buf off length result u request ran =>
    obtain ⟨v, delivered, reading⟩ := o2fs_Read_reads inv.volume request.opened request.inside
      request.small (exists_unreferenced request.free) request.target
    rw [delivered] at ran
    obtain ⟨_, rfl⟩ := Prod.mk.inj (some.inj ran)
    refine ⟨reading.volume inv.volume, ?_⟩
    intro h i value found
    rw [reading.images]
    exact inv.latest h i value found
  | write vn f buf off length result u request ran =>
    obtain ⟨v, finished, volume, _, _, stored⟩ := o2fs_Write_stores inv.volume request.opened
      request.positive request.bound (exists_unreferenced request.free) request.room
      request.source
    rw [finished] at ran
    obtain ⟨_, rfl⟩ := Prod.mk.inj (some.inj ran)
    refine ⟨volume, ?_⟩
    intro h i value found
    by_cases here : h = f ∧ off ≤ i ∧ i < off + length
    · obtain ⟨rfl, low, high⟩ := here
      simp only [Session.record, low, high, and_self, ↓reduceIte, some.injEq] at found
      have written := stored.written (i - off) (by omega)
      rw [Nat.add_sub_cancel' low] at written
      refine ⟨request.opened.member, ?_, written.trans found⟩
      rw [stored.size]
      omega
    · simp only [Session.record, here, ↓reduceIte] at found
      obtain ⟨member, below, current⟩ := inv.latest h i value found
      by_cases same : h = f
      · subst h
        have away : i < off ∨ off + length ≤ i := by omega
        refine ⟨member, ?_, (stored.kept i below away).trans current⟩
        rw [stored.size]
        omega
      · refine ⟨member, ?_, (stored.otherBytes h member same i below).trans current⟩
        rw [stored.otherSizes h member same]
        exact below

theorem Retained.volume {s t : BufState} {fs : VFS} {n : Nat} (retained : Retained bufBase s t n)
    (mounted : Mounted g fs t) (writes : ∀ n, s.writeStatus n = 0)
    (formatted : Formatted g (image s g.disk)) (layout : Layout g (image s g.disk))
    (sized : Sized g (image s g.disk)) : Volume bufBase g fs t := by
  refine ⟨retained.coherent, mounted, retained.reads, ?_, ?_, ?_, ?_⟩
  · intro n
    rw [retained.writeStatus]
    exact writes n
  · rw [retained.images]
    exact formatted.blockSize
  · rw [retained.images]
    exact layout
  · rw [retained.images]
    exact sized

/-- O2FS is a store of files. A formatted volume whose non-zero direct pointers own their
blocks mounts, and after every sequence of calls the layout holds, a read returns the
last values written and a write succeeds without touching any other file. -/
theorem o2fs_faithful_store (s : BufState) (coherent : Coherent bufBase everyBlock s)
    (reads : ∀ n, s.readStatus n = 0) (writes : ∀ n, s.writeStatus n = 0)
    (formatted : Formatted g (image s g.disk)) (layout : Layout g (image s g.disk))
    (sized : Sized g (image s g.disk)) (left : g.bitmapBlocks + 2 ≤ (unreferenced s).card) :
    ∃ fs root t, o2fs_Mount g.disk s = some (some (fs, root), t) ∧
    ∀ accesses ops session,
      Runs.Run (FileStep bufBase g fs) ⟨⟨t, accesses⟩, fun _ _ => none⟩ ops session →
      Layout g (image session.io.cache g.disk) ∧ Sized g (image session.io.cache g.disk) ∧
      (∀ f i value, session.latest f i = some value →
        i < bnSize (image session.io.cache g.disk) f) ∧
      (∀ vn f buf off length,
        ReadRequest bufBase g fs session.io.cache vn f buf off length →
        let count := min length (bnSize (image session.io.cache g.disk) f - off)
        ∃ u, o2fs_Read vn buf off length session.io = some ((count : Int), u) ∧
          ∀ j < count, ∀ value, session.latest f (off + j) = some value →
            u.cache.memory (buf + j) = value) ∧
      (∀ vn f buf off length,
        WriteRequest bufBase g fs session.io.cache vn f buf off length →
        ∃ u, o2fs_Write vn buf off length session.io = some ((length : Int), u) ∧
          ∀ h ∈ g.files, h ≠ f →
            bnSize (image u.cache g.disk) h = bnSize (image session.io.cache g.disk) h ∧
            (∀ i < 64, bnDirect (image u.cache g.disk) h i =
              bnDirect (image session.io.cache g.disk) h i) ∧
            ∀ i < bnSize (image session.io.cache g.disk) h,
              fileByte (image u.cache g.disk) h i =
                fileByte (image session.io.cache g.disk) h i) := by
  obtain ⟨fs, root, t, mount, mounted, _, _, _, retained⟩ :=
    o2fs_Mount_mounts coherent reads formatted left
  refine ⟨fs, root, t, mount, ?_⟩
  intro accesses ops session ran
  have start : SessionInv bufBase g fs ⟨⟨t, accesses⟩, fun _ _ => none⟩ :=
    ⟨Retained.volume retained mounted writes formatted layout sized, by simp⟩
  have inv : SessionInv bufBase g fs session := ran.invariant (SessionInv bufBase g fs)
    (fun _ _ _ before step => fileStep_inv before step) start
  refine ⟨inv.volume.layout, inv.volume.sized, ?_, ?_, ?_⟩
  · intro f i value found
    exact (inv.latest f i value found).2.1
  · intro vn f buf off length request
    obtain ⟨u, delivered, reading⟩ := o2fs_Read_reads inv.volume request.opened request.inside
      request.small (exists_unreferenced request.free) request.target
    refine ⟨u, delivered, ?_⟩
    intro j less value found
    rw [reading.delivered j less]
    exact (inv.latest f (off + j) value found).2.2
  · intro vn f buf off length request
    obtain ⟨u, finished, _, _, _, stored⟩ := o2fs_Write_stores inv.volume request.opened
      request.positive request.bound (exists_unreferenced request.free) request.room
      request.source
    refine ⟨u, finished, ?_⟩
    intro h member other
    exact ⟨stored.otherSizes h member other, stored.otherPointers h member other,
      stored.otherBytes h member other⟩

end

/-! A small volume: the superblock, one bitmap block and block nodes from block 2 on. -/

def smallVolume (bits : Nat) : Memory :=
  let blank : Memory := fun _ => 0
  let magic := storeLE blank 0 8 0x4B4F4C4252505553
  let version := storeLE magic 8 2 1
  let blockCount := storeLE version 24 8 16
  let blockSize := storeLE blockCount 32 8 BLOCKSIZE
  let bitmapSize := storeLE blockSize 40 8 1
  let bitmapOffset := storeLE bitmapSize 48 8 BLOCKSIZE
  let root := storeLE bitmapOffset 104 8 (2 * BLOCKSIZE)
  storeLE root BLOCKSIZE 1 bits

def withNode (img : Memory) (f size pointer : Nat) : Memory :=
  let magic := storeLE img f 8 0x45444F4E4B4F4C42
  let version := storeLE magic (f + 8) 2 1
  let sized := storeLE version (f + 16) 8 size
  storeLE sized (directAt f 0) 8 pointer

def smallGeometry (files : Set Nat) (nodes : ∀ f ∈ files, f = 2 * BLOCKSIZE ∨ f = 3 * BLOCKSIZE) :
    Geometry where
  disk := 1
  bitmapOffset := BLOCKSIZE
  bitmapBlocks := 1
  files := files
  bitmapAligned := rfl
  bitmapPositive := by decide
  bitmapBound := by decide
  fileAligned f member := by rcases nodes f member with rfl | rfl <;> decide
  filePositive f member := by rcases nodes f member with rfl | rfl <;> decide
  fileApart f member i bound := by
    obtain rfl : i = 0 := by omega
    rcases nodes f member with rfl | rfl <;> decide

def emptyGeometry : Geometry :=
  smallGeometry {2 * BLOCKSIZE} (fun _ member => Or.inl member)

def emptyImage : Memory := withNode (smallVolume 7) (2 * BLOCKSIZE) 0 0

theorem emptyGeometry_reserved {offset : Nat} (kept : emptyGeometry.Reserved offset) :
    ∃ n < 3, offset = n * BLOCKSIZE := by
  cases kept with
  | superblock => exact ⟨0, by decide, rfl⟩
  | bitmap i bound =>
    have few : i < 1 := bound
    obtain rfl : i = 0 := by omega
    exact ⟨1, by decide, rfl⟩
  | file _ inside => exact ⟨2, by decide, inside⟩

theorem emptyGeometry_used {img : Memory} (bits : ∀ n < 3, blockBit img BLOCKSIZE n = true)
    {offset : Nat} (kept : emptyGeometry.Reserved offset) : offset ∈ used emptyGeometry img := by
  obtain ⟨n, bound, rfl⟩ := emptyGeometry_reserved kept
  have number : n * BLOCKSIZE / BLOCKSIZE = n := Nat.mul_div_cancel _ (by decide)
  have capacity : 3 ≤ emptyGeometry.capacity := by decide
  refine ⟨Nat.mul_mod_left _ _, by omega, ?_⟩
  rw [number]
  exact bits n bound

theorem emptyGeometry_layout {img : Memory} (bits : ∀ n < 3, blockBit img BLOCKSIZE n = true)
    (zero : ∀ i : Fin 64, bnDirect img (2 * BLOCKSIZE) i = 0) : Layout emptyGeometry img := by
  have unused : slots emptyGeometry img = fun _ => none := by
    funext ⟨⟨f, member⟩, i⟩
    obtain rfl : f = 2 * BLOCKSIZE := member
    simp only [slots, zero i, ↓reduceIte]
  rw [Layout, unused]
  exact ⟨by simp, by simp, by simp, fun _ kept => emptyGeometry_used bits kept⟩

theorem emptyImage_layout : Layout emptyGeometry emptyImage :=
  emptyGeometry_layout (by decide) (by decide)

theorem emptyImage_formatted : Formatted emptyGeometry emptyImage := by
  refine ⟨by decide, by decide, by decide, by decide,
    by decide, ?_, ?_⟩
  · have root : sbRootOffset emptyImage 0 = 2 * BLOCKSIZE := by decide
    exact root
  · rintro f rfl
    decide

theorem emptyImage_sized : Sized emptyGeometry emptyImage := by
  rintro f rfl
  have size : bnSize emptyImage (2 * BLOCKSIZE) = 0 := by decide
  rw [size]
  exact ⟨by omega, fun i below => absurd below (by omega)⟩

def pairGeometry : Geometry :=
  smallGeometry {2 * BLOCKSIZE, 3 * BLOCKSIZE} (fun _ member => member)

/-- The file at block 2 has three bytes in block 4, the file at block 3 one in block 5. -/
def filesImage : Memory :=
  let nodes := withNode (withNode (smallVolume 63) (2 * BLOCKSIZE) 3 (4 * BLOCKSIZE))
    (3 * BLOCKSIZE) 1 (5 * BLOCKSIZE)
  storeLE (storeLE nodes (4 * BLOCKSIZE) 3 0x333231) (5 * BLOCKSIZE) 1 0x41

theorem pairGeometry_reserved {offset : Nat} (kept : pairGeometry.Reserved offset) :
    ∃ n < 4, offset = n * BLOCKSIZE := by
  cases kept with
  | superblock => exact ⟨0, by decide, rfl⟩
  | bitmap i bound =>
    have few : i < 1 := bound
    obtain rfl : i = 0 := by omega
    exact ⟨1, by decide, rfl⟩
  | file _ inside =>
    rcases inside with rfl | rfl
    · exact ⟨2, by decide, rfl⟩
    · exact ⟨3, by decide, rfl⟩

theorem filesImage_used {n : Nat} (few : n < 6) : n * BLOCKSIZE ∈ used pairGeometry filesImage := by
  have number : n * BLOCKSIZE / BLOCKSIZE = n := Nat.mul_div_cancel _ (by decide)
  have capacity : 6 ≤ pairGeometry.capacity := by decide
  have bits : ∀ n < 6, blockBit filesImage BLOCKSIZE n = true := by decide
  refine ⟨Nat.mul_mod_left _ _, by omega, ?_⟩
  rw [number]
  exact bits n few

theorem filesImage_slot {slot : pairGeometry.Slot} {block : Nat}
    (found : slots pairGeometry filesImage slot = some block) :
    slot.2 = 0 ∧ block = slot.1.1 + 2 * BLOCKSIZE := by
  have direct : ∀ f ∈ pairGeometry.files, ∀ i : Fin 64,
      bnDirect filesImage f i = if i = 0 then f + 2 * BLOCKSIZE else 0 := by
    rintro f (rfl | rfl) <;> decide +kernel
  obtain ⟨⟨f, member⟩, i⟩ := slot
  simp only [slots, direct f member i] at found
  by_cases head : i = 0
  · rw [if_pos head, if_neg (Nat.ne_of_gt (Nat.add_pos_right f (by decide)))] at found
    exact ⟨head, (some.inj found).symm⟩
  · simp [head] at found

theorem filesImage_layout : Layout pairGeometry filesImage := by
  have places : ∀ {slot block}, slots pairGeometry filesImage slot = some block →
      block = 4 * BLOCKSIZE ∨ block = 5 * BLOCKSIZE := by
    intro slot block found
    obtain ⟨-, rfl⟩ := filesImage_slot found
    rcases slot.1.2 with place | place
    · exact .inl (by omega)
    · have second : slot.1.1 = 3 * BLOCKSIZE := place
      exact .inr (by omega)
  refine ⟨?_, ?_, ?_, ?_⟩
  · intro slot block found
    rcases places found with rfl | rfl
    · exact filesImage_used (by decide)
    · exact filesImage_used (by decide)
  · intro slot block found kept
    obtain ⟨n, few, place⟩ := pairGeometry_reserved kept
    unfold BLOCKSIZE at *
    rcases places found with rfl | rfl <;> omega
  · intro slot other block found again
    obtain ⟨head, place⟩ := filesImage_slot found
    obtain ⟨otherHead, otherPlace⟩ := filesImage_slot again
    exact Prod.ext (Subtype.ext (by omega)) (head.trans otherHead.symm)
  · intro offset kept
    obtain ⟨n, few, rfl⟩ := pairGeometry_reserved kept
    exact filesImage_used (by omega)

theorem filesImage_formatted : Formatted pairGeometry filesImage := by
  refine ⟨by decide, by decide, by decide, by decide, by decide, ?_, ?_⟩
  · have root : sbRootOffset filesImage 0 = 2 * BLOCKSIZE := by decide
    exact .inl root
  · rintro f (rfl | rfl) <;> decide

theorem filesImage_sized : Sized pairGeometry filesImage := by
  have one : ∀ {size i : Nat}, size ≤ 3 → i * BLOCKSIZE < size → i = 0 := by
    intro size i small below
    unfold BLOCKSIZE at below
    omega
  rintro f (rfl | rfl)
  · have size : bnSize filesImage (2 * BLOCKSIZE) = 3 := by decide
    rw [size]
    refine ⟨by decide, fun i below => ?_⟩
    obtain rfl := one (by decide) below
    decide
  · have size : bnSize filesImage (3 * BLOCKSIZE) = 1 := by decide
    rw [size]
    refine ⟨by decide, fun i below => ?_⟩
    obtain rfl := one (by decide) below
    decide

/-- Five bytes are written over a file of three bytes and read back. The other file keeps its
size and its byte. -/
theorem o2fs_faithful_store_two_files :
    let start := bufCacheInit 0 (fun _ => 9) (fun _ => filesImage) (fun _ => 0) (fun _ => 0)
    ∃ fs root t u v, o2fs_Mount 1 start = some (some (fs, root), t) ∧
      o2fs_Write root (2 ^ 32) 0 5 ⟨t, []⟩ = some (5, u) ∧
      Layout pairGeometry (image u.cache 1) ∧
      bnSize (image u.cache 1) (3 * BLOCKSIZE) = 1 ∧
      fileByte (image u.cache 1) (3 * BLOCKSIZE) 0 = 0x41 ∧
      o2fs_Read root (2 ^ 33) 0 5 u = some (5, v) ∧ ∀ j < 5, v.cache.memory (2 ^ 33 + j) = 9 := by
  intro start
  have disk : image start pairGeometry.disk = filesImage := init_image _ _ _ _ _ _
  have coherent : Coherent 0 everyBlock start := init_coherent 0 _ _ _ _
  have formatted : Formatted pairGeometry (image start pairGeometry.disk) := by
    rw [disk]
    exact filesImage_formatted
  have layout : Layout pairGeometry (image start pairGeometry.disk) := by
    rw [disk]
    exact filesImage_layout
  have sized : Sized pairGeometry (image start pairGeometry.disk) := by
    rw [disk]
    exact filesImage_sized
  have entries : (unreferenced start).card = CACHEENTRIES := init_unreferenced ..
  have enough : pairGeometry.bitmapBlocks + 2 < CACHEENTRIES := by decide
  have far : ∀ address, 2 ^ 32 ≤ address → Outside 0 address := by
    intro address low
    right
    have most : 0 + BLOCKSIZE * CACHEENTRIES ≤ 2 ^ 32 := by decide
    omega
  obtain ⟨fs, root, t, mount, mounted, vfs, device, held, retained⟩ :=
    o2fs_Mount_mounts (g := pairGeometry) coherent (fun _ => rfl) formatted (by omega)
  obtain ⟨_, _, _, again, runs⟩ := o2fs_faithful_store (g := pairGeometry) start coherent
    (fun _ => rfl) (fun _ => rfl) formatted layout sized (by omega)
  obtain ⟨same, rfl⟩ := Prod.mk.inj (some.inj (mount.symm.trans again))
  obtain ⟨rfl, rfl⟩ := Prod.mk.inj (some.inj same)
  have place : sbRootOffset (image start pairGeometry.disk) 0 = 2 * BLOCKSIZE := by
    rw [disk]
    decide
  rw [place] at held
  have opened : Opened pairGeometry fs t root (2 * BLOCKSIZE) := ⟨vfs, device, .inl rfl, held⟩
  have images : image t pairGeometry.disk = filesImage := (retained.images _).trans disk
  have left := retained.left
  have size : bnSize filesImage (2 * BLOCKSIZE) = 3 := by decide
  have otherSize : bnSize filesImage (3 * BLOCKSIZE) = 1 := by decide
  have request : WriteRequest 0 pairGeometry fs t root (2 * BLOCKSIZE) (2 ^ 32) 0 5 := by
    refine ⟨opened, by decide, by decide, by omega, ?_, fun address low _ => far address low⟩
    rw [images, size]
    exact Nat.zero_le _
  -- the write leaves the other file alone, and the run of this one step reads back what it wrote
  obtain ⟨u, wrote, others⟩ := (runs [] [] _ (.nil _)).2.2.2.2 root (2 * BLOCKSIZE) (2 ^ 32) 0 5 request
  have before : Volume 0 pairGeometry fs (IoState.mk t []).cache :=
    Retained.volume retained mounted (fun _ => rfl) formatted layout sized
  obtain ⟨_, wrote', -, steady, -, stored⟩ := o2fs_Write_stores before opened request.positive
    request.bound (exists_unreferenced request.free) request.room request.source
  obtain ⟨-, rfl⟩ := Prod.mk.inj (some.inj (wrote.symm.trans wrote'))
  obtain ⟨kept, -, -, reads, -⟩ := runs [] [.write root (2 * BLOCKSIZE) (2 ^ 32) 0 5] _
    (.single (.write _ root (2 * BLOCKSIZE) (2 ^ 32) 0 5 5 u request wrote))
  have free : 0 < (unreferenced u.cache).card := by
    rw [steady.unreferenced]
    exact request.free
  obtain ⟨v, read, bytes⟩ := reads root (2 * BLOCKSIZE) (2 ^ 33) 0 5
    ⟨opened.keep steady.kept, by decide, by decide, free, fun address low _ => far address (by omega)⟩
  have grown : bnSize (image u.cache pairGeometry.disk) (2 * BLOCKSIZE) = 5 := by
    rw [stored.size, images, size]
    rfl
  simp only [grown] at read bytes
  obtain ⟨otherKept, -, otherBytes⟩ := others (3 * BLOCKSIZE) (.inr rfl) (by decide)
  simp only [images, otherSize] at otherKept otherBytes
  refine ⟨fs, root, t, u, v, mount, wrote, kept, otherKept, ?_, read, fun j less => ?_⟩
  · exact (otherBytes 0 (by decide)).trans (by decide)
  · refine bytes j less 9 ?_
    have source := retained.outside (2 ^ 32 + j) (far _ (by omega))
    have written : 0 ≤ 0 + j ∧ 0 + j < 0 + 5 := by omega
    simp only [Session.record, written, and_self, ↓reduceIte]
    rw [Nat.sub_zero, Nat.zero_add, source]
    rfl

structure InRangeLayout (g : Geometry) (img : Memory) : Prop where
  pointers : ∀ f ∈ g.files, ∀ i < 64, i * BLOCKSIZE < bnSize img f →
    bnDirect img f i ≠ 0 ∧ ¬ g.Reserved (bnDirect img f i) ∧ bnDirect img f i ∈ used g img
  distinct : ∀ f ∈ g.files, ∀ h ∈ g.files, ∀ i < 64, ∀ j < 64, i * BLOCKSIZE < bnSize img f →
    j * BLOCKSIZE < bnSize img h → bnDirect img f i = bnDirect img h j → f = h ∧ i = j
  reservedUsed : reserved g ⊆ used g img

/-- The file at block 3 has one byte in block 4. The file at block 2 is empty, but its
first pointer still names block 4. -/
def stalePointerImage : Memory :=
  Function.update (withNode (withNode (smallVolume 31) (2 * BLOCKSIZE) 0 (4 * BLOCKSIZE))
    (3 * BLOCKSIZE) 1 (4 * BLOCKSIZE)) (4 * BLOCKSIZE) 7

def stalePointerRun : Option (Int × UInt8 × UInt8) := do
  let buf := 2 ^ 32
  let start := bufCacheInit 0 (Function.update (fun _ => 0) (buf + 1) 9)
    (fun _ => stalePointerImage) (fun _ => 0) (fun _ => 0)
  let (mounted, s) ← o2fs_Mount 1 start
  let (fs, first) ← mounted
  let (loaded, s) ← o2fsLoadVNode fs (3 * BLOCKSIZE) s
  let second ← loaded
  let (_, io) ← o2fs_Read second buf 0 1 ⟨s, []⟩
  let before := io.cache.memory buf
  let (written, io) ← o2fs_Write first (buf + 1) 0 1 io
  let (_, io) ← o2fs_Read second buf 0 1 io
  return (written, before, io.cache.memory buf)

/-- With the in-range condition alone, growing one file can take over the block of
another one: `O2FSGrowVNode` keeps every pointer that is not 0. -/
theorem stale_pointer_shares_block :
    InRangeLayout pairGeometry stalePointerImage ∧ stalePointerRun = some (1, 7, 9) := by
  have sizeFirst : bnSize stalePointerImage (2 * BLOCKSIZE) = 0 := by decide
  have sizeSecond : bnSize stalePointerImage (3 * BLOCKSIZE) = 1 := by decide
  have zero : ∀ i, i * BLOCKSIZE < 1 → i = 0 := by
    intro i below
    unfold BLOCKSIZE at below
    omega
  have only : ∀ f ∈ pairGeometry.files, ∀ i, i * BLOCKSIZE < bnSize stalePointerImage f →
      f = 3 * BLOCKSIZE ∧ i = 0 := by
    rintro f (rfl | rfl) i below
    · rw [sizeFirst] at below
      omega
    · rw [sizeSecond] at below
      exact ⟨rfl, zero i below⟩
  refine ⟨⟨?_, ?_, ?_⟩, by decide +kernel⟩
  · intro f member i _ below
    obtain ⟨rfl, rfl⟩ := only f member i below
    have pointer : bnDirect stalePointerImage (3 * BLOCKSIZE) 0 = 4 * BLOCKSIZE := by
      decide
    rw [pointer]
    refine ⟨by decide, ?_, rfl, by decide, by decide⟩
    generalize block : 4 * BLOCKSIZE = offset
    intro held
    cases held with
    | superblock => exact absurd block (by decide)
    | bitmap j bound =>
      obtain rfl : j = 0 := by
        have few : j < 1 := bound
        omega
      exact absurd block (by decide)
    | file _ inside =>
      rcases inside with rfl | rfl
      · exact absurd block (by decide)
      · exact absurd block (by decide)
  · intro f member h other i _ j _ below otherBelow _
    obtain ⟨rfl, rfl⟩ := only f member i below
    obtain ⟨rfl, rfl⟩ := only h other j otherBelow
    exact ⟨rfl, rfl⟩
  · intro offset member
    cases member with
    | superblock => exact ⟨rfl, by decide, by decide⟩
    | bitmap j bound =>
      obtain rfl : j = 0 := by
        have few : j < 1 := bound
        omega
      exact ⟨rfl, by decide, by decide⟩
    | file _ inside =>
      rcases inside with rfl | rfl
      · exact ⟨rfl, by decide, by decide⟩
      · exact ⟨rfl, by decide, by decide⟩

end BoringOs.O2fs
