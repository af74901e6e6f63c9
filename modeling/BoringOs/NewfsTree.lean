import BoringOs.NewfsAlloc
import BoringOs.O2fsLookup
import BoringOs.VfsPath

/-! The files and directories of a manifest, as the kernel finds them on the disk that `newfs_o2fs`
makes of it: through the mount, the walk of `VFS_Lookup`, `O2FS_Read` and `O2FS_ReadDir`. -/

namespace BoringOs.Newfs

open ByteMemory BufCache O2fs Vfs List Nat

inductive Object where
  | file (content : List UInt8)
  | dir (entries : Entries)

/-- The entry of a directory with a name. -/
def Entries.look (env : Env) (name : List UInt8) : Entries → Option Object
  | nil => none
  | file other path rest =>
    if other = name then some (.file (contentOf env path)) else rest.look env name
  | dir other entries rest => if other = name then some (.dir entries) else rest.look env name

def Object.walk (env : Env) : Object → List (List UInt8) → Option Object
  | object, [] => some object
  | .file _, _ :: _ => none
  | .dir entries, name :: names => (entries.look env name).bind (fun object => object.walk env names)

/-- A directory of the manifest on disk, whose entries start at an offset. -/
structure Directory (env : Env) (img : Memory) (files : Set Nat) (entries : Entries) (start : Nat) :
  Prop where
  listable : entries.Listable
  valid : entries.Valid env
  clean : ∀ token ∈ entries.tokens, 0 ∉ token
  holds : Holds env img entries start
  nodes : ∀ seg ∈ entries.segments env start, seg.node ∈ files
  block : DirAt img (start + entries.blocks env * BLOCKSIZE) (entries.listing env start)

/-- The block node of an object is at an offset. -/
def Object.At (env : Env) (img : Memory) (files : Set Nat) (offset : Nat) : Object → Prop
  | file content => ∃ first, FileAt img first content ∧
    offset = first + blockCeil content.length * BLOCKSIZE
  | dir entries => ∃ start, Directory env img files entries start ∧
    offset = start + entries.blocks env * BLOCKSIZE + BLOCKSIZE

/-- The kernel shows the object as it is: the size of a file and the bytes of every request, and the
names of a directory in their order, whatever buffers are given. -/
def Object.Shown (bufBase : Nat) (node : VNode) (s : BufState) : Object → Prop
  | file content => (o2fs_Stat node s).map Stat.st_size = some content.length ∧
    ∀ buf off length, off < 64 * BLOCKSIZE → off + length < word64 → OutsideAll bufBase buf length →
    let count := min length (content.length - off)
    ∃ t, o2fs_Read node buf off length ⟨s, []⟩ = some ((count : Int), t) ∧
      ∀ j < count, t.cache.memory (buf + j) = bytesAt content (off + j)
  | dir entries => ∀ dirEntry de buffers, Locals bufBase dirEntry de →
    (∀ i, DIRENT_SIZE ≤ (buffers i).2 ∧ (buffers i).1 + (buffers i).2 ≤ MEM_USERSPACE_TOP) →
    let n := entries.names.length
    ∃ t, readDirCalls node dirEntry de buffers (n + 1) 0 0 ⟨s, []⟩ =
      some (entries.names, (n : Int), n * BDIRENTRY_SIZE, t)

variable {env : Env} {img : Memory} {files : Set Nat} {entries : Entries} {start offset k : Nat}
  {names : List (List UInt8)} {name content source : List UInt8} {object target : Object}
  {bufBase : Nat} {g : Geometry} {fs : VFS} {s : BufState} {vn : VNode} {disk : DiskId} {contents : Memory}

theorem Holds.look (holds : Holds env img entries start) (valid : entries.Valid env)
    (clean : ∀ token ∈ entries.tokens, 0 ∉ token)
    (nodes : ∀ seg ∈ entries.segments env start, seg.node ∈ files)
    (found : entries.look env name = some object) :
    ∃ offset, (name, offset) ∈ entries.listing env start ∧ ValidName name ∧ offset ∈ files ∧
      object.At env img files offset := by
  induction entries generalizing start with
  | nil => cases found
  | file other path rest ih =>
    obtain ⟨file, holds⟩ := holds
    obtain ⟨here, nodes⟩ := forall_mem_cons.mp nodes
    rw [Entries.look] at found
    split at found
    case isTrue hit =>
      cases found
      exact ⟨_, hit ▸ mem_cons_self, hit ▸ valid.1, here, start, file, rfl⟩
    case isFalse =>
      obtain ⟨offset, listed, more⟩ := ih holds valid.2.2
        (fun token member => clean token (by simp [Entries.tokens, member])) nodes found
      exact ⟨offset, mem_cons_of_mem _ listed, more⟩
  | dir other below rest _ ih =>
    obtain ⟨held, directory, holds⟩ := holds
    obtain ⟨plain, listable, validBelow, valid⟩ := valid
    obtain ⟨low, high⟩ := forall_mem_append.mp nodes
    obtain ⟨here, nodes⟩ := forall_mem_cons.mp high
    obtain ⟨_, _, clean⟩ : 0 ∉ DIR ∧ 0 ∉ other ∧ _ := by
      simpa only [Entries.tokens, forall_mem_cons] using clean
    obtain ⟨cleanBelow, clean⟩ := forall_mem_append.mp clean
    rw [Entries.look] at found
    split at found
    case isTrue hit =>
      cases found
      have place : start + (below.blocks env + 1) * BLOCKSIZE =
          start + below.blocks env * BLOCKSIZE + BLOCKSIZE := by rw [succ_mul, add_assoc]
      rw [Segment.node, one_mul, ← place] at here
      exact ⟨_, hit ▸ mem_cons_self, hit ▸ plain, here, start,
        ⟨listable, validBelow, cleanBelow, held, low, directory⟩, place⟩
    case isFalse =>
      obtain ⟨offset, listed, more⟩ := ih holds valid
        (fun token member => clean token (mem_cons_of_mem _ member)) nodes found
      exact ⟨offset, mem_cons_of_mem _ listed, more⟩

theorem Entries.listing_tokens (entries : Entries) (start : Nat) :
    ∀ entry ∈ entries.listing env start, entry.1 ∈ entries.tokens := by
  induction entries generalizing start with
  | nil => simp [listing]
  | file _ _ _ ih | dir _ _ _ _ ih =>
    exact forall_mem_cons.mpr ⟨by simp [tokens], fun entry member => by simp [tokens, ih _ entry member]⟩

theorem EntryAt.listed (entry : EntryAt contents (k * BDIRENTRY_SIZE) name offset) (clean : 0 ∉ name)
    (short : name.length ≤ MAXNAMELEN) : DirEntryAt contents k ∧ entryName contents k = name := by
  have terminated : ∃ len < NAME_MAX, contents (dirName (k * BDIRENTRY_SIZE) + len) = 0 :=
    ⟨name.length, lt_succ_of_le short, by simp [entry.name _ le_rfl, bytesAt]⟩
  have magic := bytes_of_sameBytes entry.magic
  rw [bytesAt_terminated] at magic
  refine ⟨⟨sameBytes_of_bytes fun index less => magic index (lt_trans less (by simp)), terminated⟩, ?_⟩
  obtain ⟨_, bytes⟩ := stringAt_bytes terminated
  exact bytesAt_injective stringAt_clean clean fun index low high =>
    (bytes index low).symm.trans (entry.name index high)

section

variable (dir : Directory env img files entries start)
include dir

theorem Directory.slots : let contents := fileByte img (start + entries.blocks env * BLOCKSIZE + BLOCKSIZE)
    let listing := entries.listing env start
    (∀ k (inside : k < listing.length), DirEntryAt contents k ∧ entryName contents k = listing[k].1 ∧
      dirObjOffset contents (k * BDIRENTRY_SIZE) = listing[k].2) ∧
    ∀ k < 32, sameString contents (k * BDIRENTRY_SIZE) BDIR_MAGIC = true ↔ k < listing.length := by
  intro contents listing
  have few : listing.length ≤ 31 := (entries.listing_length env start).trans_le dir.listable.few
  have size : BDIRENTRY_SIZE = 512 := rfl
  have same : ∀ index < BLOCKSIZE, contents index = img (start + entries.blocks env * BLOCKSIZE + index) := by
    intro index less
    have byte := fileByte_block img (start + entries.blocks env * BLOCKSIZE + BLOCKSIZE) 0 less
    rwa [dir.block.node.direct 0 (by decide), if_pos one_pos, zero_mul, add_zero, zero_add] at byte
  have entry : ∀ k (inside : k < listing.length),
      EntryAt contents (k * BDIRENTRY_SIZE) listing[k].1 listing[k].2 := by
    intro k inside
    have room := entry_inside (inside.trans_le (few.trans (by decide)))
    refine (dir.block.entries k _ _ (getElem?_eq_getElem inside)).transfer
      (entries.listing_short dir.valid start _ (getElem_mem inside)) (fun index less => ?_)
    rw [mul_comm k, same _ (by omega), ← add_assoc]
  refine ⟨fun k inside => ?_, fun k bound => ⟨fun magic => ?_, fun inside => (entry k inside).magic⟩⟩
  · obtain ⟨listed, named⟩ := (entry k inside).listed
      (dir.clean _ (entries.listing_tokens start _ (getElem_mem inside)))
      (entries.listing_short dir.valid start _ (getElem_mem inside))
    exact ⟨listed, named, (entry k inside).object⟩
  · -- the rest of the block is zero, which is no magic
    by_contra past
    have room := entry_inside bound
    have first := bytes_of_sameBytes magic 0 (by decide)
    rw [add_zero, mul_comm k, same _ (by omega),
      dir.block.blank _ (Nat.mul_le_mul_left _ (not_lt.mp past)) (by omega)] at first
    exact absurd first (by decide)

variable (same : image s g.disk = img) (volume : Volume bufBase g fs s)
  (opened : Opened g fs s vn (start + entries.blocks env * BLOCKSIZE + BLOCKSIZE))
  (left : 0 < (unreferenced s).card)
include same volume opened left

theorem Directory.lookup (plain : 0 ∉ name) :
    (∀ offset, (name, offset) ∈ entries.listing env start → ∃ u, Retained bufBase s u 1 ∧
      o2fs_Lookup vn name s = (o2fsLoadVNode fs offset u).map (fun (fn, t) => (0, fn, t))) ∧
    (name ∉ entries.names → ∃ u, o2fs_Lookup vn name s = some (-1, none, u)) := by
  subst same
  obtain ⟨slots, seen⟩ := dir.slots
  have few := dir.listable.few
  have distinct := dir.listable.distinct
  rw [← entries.listing_length env start] at few
  rw [← entries.listing_names env start, Nodup, pairwise_map] at distinct
  have size := dir.block.node.size
  rw [← entries.listing_names env start]
  generalize entries.listing env start = listing at *
  generalize start + entries.blocks env * BLOCKSIZE + BLOCKSIZE = f at *
  have blocks : directoryBlocks listing.length = (listing.length + 31) / 32 := by
    rw [directoryBlocks_eq (by unfold BDIRENTRY_SIZE BLOCKSIZE; omega)]
    unfold BDIRENTRY_SIZE BLOCKSIZE
    omega
  obtain ⟨finds, misses⟩ := o2fs_Lookup_searches (entryProbe (fileByte (image s g.disk) f) _ name) volume
    opened left (size.trans (mul_comm ..)) (fun b bound memory dir there e less => by
      obtain rfl : b = 0 := by omega
      exact slot_probe there less (fun k inside => (slots k inside).1) plain (by simpa using seen e less))
  constructor
  · intro offset member
    obtain ⟨k, inside, found⟩ := getElem_of_mem member
    refine finds k offset (by omega) ?_ (fun j before => if_neg ?_)
    · rw [entryProbe, (slots k inside).2.1, (slots k inside).2.2, found]
      exact if_pos ⟨inside, rfl⟩
    · rintro ⟨less, same⟩
      have other := pairwise_iff_getElem.mp distinct j k less inside before
      rw [← (slots j less).2.1, same, found] at other
      exact other rfl
  · intro absent
    have missing : ∀ k, entryProbe (fileByte (image s g.disk) f) listing.length name k = none := by
      refine fun k => if_neg ?_
      rintro ⟨less, rfl⟩
      rw [(slots k less).2.1] at absent
      exact absent (mem_map_of_mem (getElem_mem less))
    obtain ⟨u, _, failed⟩ := misses (fun k _ => missing k)
    exact ⟨u, failed⟩

theorem Directory.shown : (Object.dir entries).Shown bufBase vn s := by
  intro dirEntry de buffers locals fits n
  subst same
  obtain ⟨slots, _⟩ := dir.slots
  have listing : Listing bufBase g fs vn _ _ _ ⟨s, []⟩ :=
    ⟨volume, opened, exists_unreferenced left, fun _ => rfl, dir.block.node.size.trans (mul_comm ..)⟩
  have copies : ∀ i, (buffers i).1 + DIRENT_SIZE * min ((buffers i).2 / DIRENT_SIZE)
      (n - delivered n buffers i) ≤ MEM_USERSPACE_TOP := fun i =>
    (Nat.add_le_add_left ((Nat.mul_le_mul_left _ (min_le_left ..)).trans (Nat.mul_div_le ..)) _).trans (fits i).2
  have length : _ = n := entries.listing_length env start
  rw [← length] at copies ⊢
  obtain ⟨t, ran⟩ := readDirCalls_lists locals (fun k inside => (slots k inside).1) (fun i => (fits i).1)
    copies _ 0 0 _ listing (Nat.zero_le _) rfl (lt_succ_self _)
  refine ⟨t, ran.trans ?_⟩
  rw [Nat.sub_zero, ← range_eq_range', ← entries.listing_names env start]
  congr 2
  refine ext_getElem (by simp) fun k low high => ?_
  simpa using (slots k (by simpa using high)).2.1

end

theorem ValidName.lookup {status : Int} {node : Option VNode} {t : BufState} (valid : ValidName name)
    (result : o2fs_Lookup vn name s = some (status, node, t)) : lookupPieces (some vn) (name :: names) s =
      if status < 0 then some (none, t) else lookupPieces node names t := by
  have some_bytes := valid.nonempty
  have few := valid.short
  unfold MAXNAMELEN at few
  rw [lookupPieces, if_neg (by omega), if_neg (by omega), if_neg (by omega)]
  simp only [result]

/-- The walk takes two references for each name. -/
theorem Object.At.walk (place : object.At env img g.files offset)
    (accepted : ∀ f ∈ g.files, bnodeOk img f = true) (same : image s g.disk = img)
    (volume : Volume bufBase g fs s) (opened : Opened g fs s vn offset)
    (found : object.walk env names = some target) (left : 2 * names.length < (unreferenced s).card) :
    ∃ fn u f, (∀ more, lookupPieces (some vn) (names ++ more) s = lookupPieces (some fn) more u) ∧
      target.At env img g.files f ∧ Opened g fs u fn f ∧ Retained bufBase s u (2 * names.length) := by
  induction names generalizing object offset vn s with
  | nil =>
    obtain rfl : object = target := by cases object <;> exact Option.some.inj found
    exact ⟨vn, s, offset, fun _ => rfl, place, opened, .refl volume.coherent volume.reads⟩
  | cons name names ih =>
    obtain _ | entries := object
    · cases found
    obtain ⟨start, dir, rfl⟩ := place
    obtain ⟨next, hit, found⟩ := Option.bind_eq_some_iff.mp found
    obtain ⟨offset, member, plain, inside, place⟩ := dir.holds.look dir.valid dir.clean dir.nodes hit
    rw [length_cons] at left ⊢
    obtain ⟨u, kept, searched⟩ := (dir.lookup same volume opened (by omega)
      (dir.clean _ (entries.listing_tokens start _ member))).1 offset member
    have leftFirst := kept.left
    have node : bnodeOk (image u g.disk) offset = true := by
      rw [kept.images, same]
      exact accepted offset inside
    have free : 0 < (unreferenced u).card := by omega
    obtain ⟨e, t, loaded, held, more⟩ := loadBNode_loads kept.coherent kept.reads g.disk
      (g.fileAligned offset inside) node free
    have reached : Opened g fs t ⟨g.disk, e, fs⟩ offset := ⟨rfl, rfl, inside, held⟩
    have both := kept.trans more
    have leftBoth := both.left
    obtain ⟨last, v, f, walked, file, opened, rest⟩ :=
      ih place ((both.images _).trans same) (volume.of_retained both) reached found (by omega)
    have whole := both.trans rest
    rw [add_comm, ← mul_succ] at whole
    refine ⟨last, v, f, fun more => ?_, file, opened, whole⟩
    rw [o2fsLoadVNode, volume.mounted.disk, loaded] at searched
    rw [← walked, cons_append, plain.lookup searched]
    exact if_neg (by decide)

theorem FileAt.shown {first : Nat} (file : FileAt (image s g.disk) first content)
    (volume : Volume bufBase g fs s) (left : 0 < (unreferenced s).card)
    (opened : Opened g fs s vn (first + blockCeil content.length * BLOCKSIZE)) :
    (Object.file content).Shown bufBase vn s := by
  have size := file.node.size
  refine ⟨?_, fun buf off length inside small target => ?_⟩
  · rw [o2fs_Stat, volume.readsBlockSize opened.vfs, opened.size volume.coherent.rep, size]
    rfl
  obtain ⟨t, ran, reading⟩ := @o2fs_Read_reads _ _ _ _ _ _ _ _ ⟨s, []⟩ volume opened inside small
    (exists_unreferenced left) target
  rw [size] at ran reading
  refine ⟨t, ran, fun j less => ?_⟩
  have within : off + j < content.length := by omega
  have slot := lt_blockCeil.mpr (Nat.lt_of_le_of_lt (div_mul_le_self (off + j) BLOCKSIZE) within)
  have most := blockCeil_le (size ▸ (volume.sized _ opened.member).1)
  rw [reading.delivered j less, fileByte, file.node.direct _ (by omega), if_pos slot, add_assoc,
    div_add_mod', file.bytes _ within]

theorem Object.At.shown (place : object.At env img files offset) (same : image s g.disk = img)
    (volume : Volume bufBase g fs s) (opened : Opened g fs s vn offset)
    (left : 0 < (unreferenced s).card) : object.Shown bufBase vn s := by
  cases object with
  | file content =>
    obtain ⟨first, file, rfl⟩ := place
    exact FileAt.shown (same ▸ file) volume left opened
  | dir entries =>
    obtain ⟨start, dir, rfl⟩ := place
    exact dir.shown same volume opened left

theorem Made.mounts {megabytes : Nat} (made : Made env (bitmapSizeOf (diskSizeOf megabytes)) entries img)
    (makeable : Makeable env megabytes entries source) (bound : bitmapSizeOf (diskSizeOf megabytes) ≤ 16)
    (bufBase : Nat) (memory : Memory) {disks : DiskId → Memory} (present : disks disk = img) :
    let g := volumeGeometry disk env _ bound entries
    ∃ fs root t, o2fs_Mount disk (bufCacheInit bufBase memory disks (fun _ => 0) (fun _ => 0)) =
        some (some (fs, root), t) ∧ Volume bufBase g fs t ∧
      Opened g fs t root (sbRootOffset img 0) ∧ image t disk = img ∧
      CACHEENTRIES ≤ (unreferenced t).card + (bitmapSizeOf (diskSizeOf megabytes) + 2) := by
  intro g
  have formatted := made.formatted makeable.listable makeable.valid disk bound
  have layout := made.layout makeable.listable makeable.valid disk bound makeable.bitmap makeable.few
  have sized := made.sized makeable.listable makeable.valid disk bound
  have left := init_unreferenced bufBase memory disks (fun _ => 0) (fun _ => 0)
  rw [← present, ← init_image bufBase memory disks (fun _ => 0) (fun _ => 0) disk] at formatted layout sized ⊢
  obtain ⟨fs, root, t, mounted, held, vfs, sameDisk, rootHeld, kept⟩ :=
    o2fs_Mount_mounts (init_coherent ..) (fun _ => rfl) formatted
      (left ▸ (Nat.add_le_add_right bound 2).trans (by decide))
  exact ⟨fs, root, t, mounted, Retained.volume kept held (fun _ => rfl) formatted layout sized,
    ⟨vfs, sameDisk, formatted.root, rootHeld⟩, kept.images _, left ▸ kept.left⟩

theorem Spelled.clean {tokens : List (List UInt8)} (spelled : Spelled tokens source) :
    ∀ token ∈ tokens, 0 ∉ token := by
  induction spelled with
  | nil => simp
  | cons _ token _ _ _ valid _ _ ih =>
    exact forall_mem_cons.mpr ⟨fun zero => absurd (valid.chars 0 zero) (by decide), ih⟩

/-- The disk of every manifest is mounted as a volume in good order. Every file and directory is found
by its path and read as it was, and no other name is found in a directory. -/
theorem newfs_files_read_back {megabytes : Nat} (makeable : Makeable env megabytes entries source)
    (bound : bitmapSizeOf (diskSizeOf megabytes) ≤ 16) (fresh : Bool) (before : Memory) :
    ∃ img, newfs env megabytes fresh (some source) before = some img ∧
      ∀ bufBase memory (disks : DiskId → Memory) disk, disks disk = img →
        ∃ fs root t, o2fs_Mount disk (bufCacheInit bufBase memory disks (fun _ => 0) (fun _ => 0)) =
            some (some (fs, root), t) ∧
          Volume bufBase (volumeGeometry disk env _ bound entries) fs t ∧
          ∀ path names object, (Object.dir entries).walk env names = some object →
            bitmapSizeOf (diskSizeOf megabytes) + 2 + 2 * names.length < CACHEENTRIES →
            (pieces path = names → ∃ node u,
              vfs_Lookup fs (some root) (slash :: path) t = some (some node, u) ∧
              object.Shown bufBase node u) ∧
            ∀ name below, pieces path = names ++ [name] → ValidName name → 0 ∉ name →
              object = .dir below → name ∉ below.names →
              ∃ u, vfs_Lookup fs (some root) (slash :: path) t = some (none, u) := by
  obtain ⟨img, written, made⟩ := newfs_makes makeable (by omega) fresh before
  refine ⟨img, written, fun bufBase memory disks disk present => ?_⟩
  obtain ⟨fs, root, t, mounted, volume, opened, same, leftMount⟩ := made.mounts makeable bound bufBase
    memory present
  rw [made.root, succ_mul, ← add_assoc] at opened
  refine ⟨fs, root, t, mounted, volume, fun path names object found room => ?_⟩
  have tree : (Object.dir entries).At env img (volumeGeometry disk env _ bound entries).files _ :=
    ⟨_, ⟨makeable.listable, makeable.valid,
      fun token member => makeable.spelled.clean token (by simp [manifestTokens, member]),
      made.holds, fun seg member => ⟨seg, mem_append_left _ member, rfl⟩, made.directory⟩, rfl⟩
  obtain ⟨node, u, f, walked, place, reached, more⟩ := tree.walk
    (made.formatted makeable.listable makeable.valid disk bound).nodes same volume opened found (by omega)
  have left := more.left
  have same := (more.images _).trans same
  have volume := volume.of_retained more
  have looped : vfs_Lookup fs (some root) (slash :: path) t = lookupPieces (some root) (pieces path) t := by
    rw [← vfs_LookupLoop_pieces (path.length + 1) _ path t (lt_succ_self _)]
    rfl
  rw [looped]
  constructor
  · rintro rfl
    refine ⟨node, u, ?_, place.shown same volume reached (by omega)⟩
    rw [← append_nil (pieces path), walked]
    rfl
  · rintro name below split valid plain rfl absent
    obtain ⟨start, dir, rfl⟩ := place
    obtain ⟨v, failed⟩ := (dir.lookup same volume reached (by omega) plain).2 absent
    rw [split, walked, valid.lookup failed]
    exact ⟨v, rfl⟩

theorem newfs_files_read_back_three_files : ∃ img fs root t node u,
    newfs threeBytes 1 true (some threeFilesText) (fun _ => 0) = some img ∧
    o2fs_Mount 0 (bufCacheInit 0 (fun _ => 0) (fun _ => img) (fun _ => 0) (fun _ => 0)) =
      some (some (fs, root), t) ∧
    vfs_Lookup fs (some root) [slash, 98] t = some (some node, u) ∧
    (Object.file [7]).Shown 0 node u := by
  obtain ⟨img, made, mounts⟩ := newfs_files_read_back threeFiles_makeable (by decide) true (fun _ => 0)
  obtain ⟨fs, root, t, mounted, _, reads⟩ := mounts 0 (fun _ => 0) (fun _ => img) 0 rfl
  obtain ⟨node, u, found, read⟩ := (reads [98] [[98]] (.file [7]) rfl (by decide)).1 rfl
  exact ⟨img, fs, root, t, node, u, made, mounted, found, read⟩

end BoringOs.Newfs
