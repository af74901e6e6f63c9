import BoringOs.Copy
import BoringOs.Lib.Search

/-! The O2FS file system of `sys/fs/o2fs/o2fs.c`. Its structures are read and written in the cache
buffers at the offsets of `o2fs.h`. `none` is a kernel that stops: a failed `ASSERT`, a NULL entry
that is used, a division by zero. The slabs behind `VFS_Alloc` and `VNode_Alloc` hand out zeroed
objects. -/

namespace BoringOs.O2fs

open ByteMemory BufCache

def text (chars : List Char) : List UInt8 := chars.map (fun c => UInt8.ofNat c.toNat)

def SUPERBLOCK_MAGIC : List UInt8 := text ['S', 'U', 'P', 'R', 'B', 'L', 'O', 'K']
def BNODE_MAGIC : List UInt8 := text ['B', 'L', 'O', 'K', 'N', 'O', 'D', 'E']
def BDIR_MAGIC : List UInt8 := text ['D', 'I', 'R', 'E', 'N', 'T', 'R', 'Y']

def O2FS_VERSION_MAJOR : Nat := 1
def O2FS_VERSION_MINOR : Nat := 0
def O2FS_DIRECT_PTR : Nat := 64

def sameBytes (memory : Memory) (address : Nat) : List UInt8 → Bool
  | [] => true
  | byte :: rest => memory address == byte && sameBytes memory (address + 1) rest

/-- `strcmp` of the string at `address` with a string without its terminator. -/
def sameString (memory : Memory) (address : Nat) (name : List UInt8) : Bool :=
  sameBytes memory address (name ++ [0])

/-! Fields of `SuperBlock`, `BNode` and `BDirEntry`, given the address of the object. -/

def sbVersionMajor (memory : Memory) (sb : Nat) : Nat := loadLE memory (sb + 8) 2
def sbVersionMinor (memory : Memory) (sb : Nat) : Nat := loadLE memory (sb + 10) 2
def sbBlockCount (memory : Memory) (sb : Nat) : Nat := loadLE memory (sb + 24) 8
def sbBlockSize (memory : Memory) (sb : Nat) : Nat := loadLE memory (sb + 32) 8
def sbBitmapSize (memory : Memory) (sb : Nat) : Nat := loadLE memory (sb + 40) 8
def sbBitmapOffset (memory : Memory) (sb : Nat) : Nat := loadLE memory (sb + 48) 8
def sbRootOffset (memory : Memory) (sb : Nat) : Nat := loadLE memory (sb + 104) 8

def bnVersionMajor (memory : Memory) (bn : Nat) : Nat := loadLE memory (bn + 8) 2
def bnVersionMinor (memory : Memory) (bn : Nat) : Nat := loadLE memory (bn + 10) 2
def bnSize (memory : Memory) (bn : Nat) : Nat := loadLE memory (bn + 16) 8

/-- The address of `bn->direct[i].offset`. -/
def directAt (bn i : Nat) : Nat := bn + 64 + 64 * i

def bnDirect (memory : Memory) (bn i : Nat) : Nat := loadLE memory (directAt bn i) 8

def BDIRENTRY_SIZE : Nat := 512

def dirObjOffset (memory : Memory) (dir : Nat) : Nat := loadLE memory (dir + 48) 8

def dirName (dir : Nat) : Nat := dir + 256

structure VFS where
  disk : DiskId
  fsptr : EntryId
  fsval : Nat
  blksize : Nat
  bitmap : Nat → Option EntryId

structure VNode where
  disk : DiskId
  fsptr : EntryId
  vfs : VFS

def bufferOf (s : BufState) (e : EntryId) : Nat := (s.entry e).buffer

/-- The superblock check of `O2FS_Mount` and the block node check of `O2FSLoadVNode`
and `O2FS_GetRoot`. -/
def superBlockOk (memory : Memory) (sb : Nat) : Bool :=
  sameBytes memory sb SUPERBLOCK_MAGIC &&
    (sbVersionMajor memory sb == O2FS_VERSION_MAJOR && sbVersionMinor memory sb == O2FS_VERSION_MINOR)

def bnodeOk (memory : Memory) (bn : Nat) : Bool :=
  sameBytes memory bn BNODE_MAGIC &&
    (bnVersionMajor memory bn == O2FS_VERSION_MAJOR && bnVersionMinor memory bn == O2FS_VERSION_MINOR)

/-- `BufCache_Read` of a block node and its check, as `O2FSLoadVNode` and `O2FS_GetRoot`
do it; the entry is kept when the check passes. -/
def loadBNode (disk : DiskId) (offset : Nat) (s : BufState) :
    Option (Int × Option EntryId × BufState) :=
  match bufCache_Read s disk offset with
  | (status, entry, s) =>
    if status < 0 then some (status, none, s)
    else
      match entry with
      | none => none
      | some e =>
        if bnodeOk s.memory (bufferOf s e) then some (0, some e, s)
        else some (-1, none, bufCache_Release s e)

def o2fsLoadVNode (fs : VFS) (offset : Nat) (s : BufState) : Option (Option VNode × BufState) :=
  (loadBNode fs.disk offset s).map (fun (_, entry, s) =>
    (entry.map (fun e => ⟨fs.disk, e, fs⟩), s))

/-- `O2FS_GetRoot`, given `fs->root`. -/
def o2fs_GetRoot (fs : VFS) (root : Option VNode) (s : BufState) :
    Option (Int × Option VNode × BufState) :=
  match root with
  | some vn => some (0, some vn, s)
  | none => (loadBNode fs.disk fs.fsval s).map (fun (status, entry, s) =>
    (status, entry.map (fun e => ⟨fs.disk, e, fs⟩), s))

/-- `BufCache_Release` of all 16 bitmap entries; a NULL entry is a fault. -/
def releaseBitmap (bitmap : Nat → Option EntryId) (s : BufState) : Option BufState :=
  (List.range 16).foldlM (fun s i => (bitmap i).map (bufCache_Release s)) s

/-- The bitmap loop of `O2FS_Mount` from `i`; the `ASSERT` ends it after 16 rounds. -/
def mountBitmap (disk : DiskId) (sb : EntryId) :
    Nat → Nat → (Nat → Option EntryId) → BufState →
      Option (Option (Nat → Option EntryId) × BufState)
  | 0, _, _, _ => none
  | rounds + 1, i, bitmap, s =>
    let base := bufferOf s sb
    if i < sbBitmapSize s.memory base then
      if 16 ≤ i then none
      else
        let offset := add64 (sbBitmapOffset s.memory base) (mul64 i (sbBlockSize s.memory base))
        match bufCache_Read s disk offset with
        | (status, entry, s) =>
          if status < 0 then
            (releaseBitmap bitmap s).map (fun s => (none, bufCache_Release s sb))
          else mountBitmap disk sb rounds (i + 1) (Function.update bitmap i entry) s
    else some (some bitmap, s)

/-- The reads of `mountBitmap`: the cache before each, and the offset. -/
def bitmapReads (disk : DiskId) (sb : EntryId) : Nat → Nat → BufState → List (BufState × Nat)
  | 0, _, _ => []
  | rounds + 1, i, s =>
    let base := bufferOf s sb
    if i < sbBitmapSize s.memory base then
      if 16 ≤ i then []
      else
        let offset := add64 (sbBitmapOffset s.memory base) (mul64 i (sbBlockSize s.memory base))
        (s, offset) ::
          match bufCache_Read s disk offset with
          | (status, _, s) => if status < 0 then [] else bitmapReads disk sb rounds (i + 1) s
    else []

/-- `O2FS_Mount`: the file system and `fs->root`, or NULL. -/
def o2fs_Mount (disk : DiskId) (s : BufState) : Option (Option (VFS × VNode) × BufState) :=
  match bufCache_Read s disk 0 with
  | (status, entry, s) =>
    if status < 0 then some (none, s)
    else
      match entry with
      | none => none
      | some sb =>
        if superBlockOk s.memory (bufferOf s sb) then
          match mountBitmap disk sb 17 0 (fun _ => none) s with
          | none => none
          | some (none, s) => some (none, s)
          | some (some bitmap, s) =>
            let fs : VFS := ⟨disk, sb, sbRootOffset s.memory (bufferOf s sb),
              sbBlockSize s.memory (bufferOf s sb), bitmap⟩
            match o2fs_GetRoot fs none s with
            | none => none
            | some (status, root, s) =>
              if status < 0 then some (none, bufCache_Release s sb)
              else some (root.map (fun vn => (fs, vn)), s)
        else some (none, bufCache_Release s sb)

/-- `((bitmap[b] >> bi) & 0x1) == 0`. -/
def bitClear (memory : Memory) (bitmap b bi : Nat) : Bool :=
  !(memory (bitmap + b)).toNat.testBit bi

/-- `bitmap[b] |= (1 << bi)`. -/
def setBit (memory : Memory) (bitmap b bi : Nat) : Memory :=
  Function.update memory (bitmap + b) (memory (bitmap + b) ||| UInt8.ofNat (2 ^ bi))

def clearBitIn (memory : Memory) (bitmap blksize : Nat) : Option (Nat × Nat) :=
  Search.firstHit (fun b =>
    Search.firstHit (fun bi => if bitClear memory bitmap b bi then some (b, bi) else none) 8) blksize

/-- What the loop over `fs->bitmap` stops with at `i`: nothing yet, the end of the
bitmap, or a clear bit. -/
def bitmapProbe (fs : VFS) (s : BufState) (i : Nat) : Option (Option (EntryId × Nat × Nat × Nat)) :=
  match fs.bitmap i with
  | none => some none
  | some e =>
    (clearBitIn s.memory (bufferOf s e) fs.blksize).map (fun (b, bi) => some (e, i, b, bi))

/-- `8*b` is an `int` in the source, the same for blocks of up to 2 ^ 28 bytes. -/
def o2fsBAlloc (fs : VFS) (s : BufState) : Nat × BufState :=
  match Search.firstHit (bitmapProbe fs s) 16 with
  | some (some (e, i, b, bi)) =>
    let s := { s with memory := setBit s.memory (bufferOf s e) b bi }
    (add64 (mul64 (mul64 fs.blksize 8) i) (8 * b + bi), (bufCache_Write s e).2)
  | _ => (0, s)

/-- The `for` loop of `O2FSGrowVNode` from `i`, with `count` rounds to go. -/
def growLoop (fs : VFS) (bn : Nat) : Nat → Nat → BufState → Int × BufState
  | 0, _, s => (0, s)
  | count + 1, i, s =>
    if bnDirect s.memory bn i ≠ 0 then growLoop fs bn count (i + 1) s
    else
      match o2fsBAlloc fs s with
      | (blkno, s) =>
        if blkno = 0 then (-ENOSPC, s)
        else growLoop fs bn count (i + 1)
          { s with memory := storeLE s.memory (directAt bn i) 8 (mul64 blkno fs.blksize) }

/-- `(bytes + blksize - 1) / blksize` in 64 bits. -/
def blocksOf (bytes blksize : Nat) : Nat := add64 bytes (blksize - 1) / blksize

def o2fsGrowVNode (vn : VNode) (filesz : Nat) (s : BufState) : Option (Int × BufState) :=
  let bn := bufferOf s vn.fsptr
  if vn.vfs.blksize = 0 then none
  else
    let blkstart := toInt32 (blocksOf (bnSize s.memory bn) vn.vfs.blksize)
    if filesz > mul64 vn.vfs.blksize O2FS_DIRECT_PTR then some (-EINVAL, s)
    else
      let count := if blkstart < 0 then 0
        else blocksOf filesz vn.vfs.blksize - blkstart.toNat
      match growLoop vn.vfs bn count blkstart.toNat s with
      | (status, s) =>
        if status ≠ 0 then some (status, s)
        else
          let s := { s with memory := storeLE s.memory (bn + 16) 8 filesz }
          some (0, (bufCache_Write s vn.fsptr).2)

def o2fsResolveBuf (vn : VNode) (b : Nat) (s : BufState) : Int × Option EntryId × BufState :=
  bufCache_Read s vn.disk (bnDirect s.memory (bufferOf s vn.fsptr) b)

def chunkLength (blockSize off length : Nat) : Nat :=
  if add64 (off % blockSize) length > blockSize then blockSize - off % blockSize else length

/-- The copy loops of `O2FS_Read` and `O2FS_Write`, which differ in what they do with
the block: `body entry buf bOff bLen`. A round moves at least one byte unless
`length` is 0, so `length + 1` rounds are enough. -/
def blockLoop (body : IoState → EntryId → Nat → Nat → Nat → IoState) (fn : VNode) :
    Nat → IoState → Nat → Nat → Nat → Nat → Option (Int × IoState)
  | 0, _, _, _, _, _ => none
  | rounds + 1, s, buf, off, length, readBytes =>
    let blockSize := sbBlockSize s.cache.memory (bufferOf s.cache fn.vfs.fsptr)
    if blockSize = 0 then none
    else
      let bLen := chunkLength blockSize off length
      match o2fsResolveBuf fn (off / blockSize) s.cache with
      | (status, entry, cache) =>
        if status ≠ 0 then some (status, { s with cache := cache })
        else
          match entry with
          | none => none
          | some e =>
            let s := body { s with cache := cache } e buf (off % blockSize) bLen
            if length - bLen = 0 then some (toInt32 (readBytes + bLen), s)
            else blockLoop body fn rounds s (buf + bLen) (add64 off bLen) (length - bLen)
              (readBytes + bLen)

/-- The caches in which `blockLoop` resolves a block, with the index of the block. -/
def blockVisits (body : IoState → EntryId → Nat → Nat → Nat → IoState) (fn : VNode) :
    Nat → IoState → Nat → Nat → Nat → List (BufState × Nat)
  | 0, _, _, _, _ => []
  | rounds + 1, s, buf, off, length =>
    let blockSize := sbBlockSize s.cache.memory (bufferOf s.cache fn.vfs.fsptr)
    if blockSize = 0 then []
    else
      let bLen := chunkLength blockSize off length
      (s.cache, off / blockSize) ::
        match o2fsResolveBuf fn (off / blockSize) s.cache with
        | (status, entry, cache) =>
          if status ≠ 0 then []
          else
            match entry with
            | none => []
            | some e =>
              if length - bLen = 0 then []
              else blockVisits body fn rounds (body { s with cache := cache } e buf (off % blockSize) bLen)
                (buf + bLen) (add64 off bLen) (length - bLen)

def readBlock (s : IoState) (e : EntryId) (buf bOff bLen : Nat) : IoState :=
  let s := s.copyTo buf (bufferOf s.cache e + bOff) bLen
  { s with cache := bufCache_Release s.cache e }

def writeBlock (s : IoState) (e : EntryId) (buf bOff bLen : Nat) : IoState :=
  let s := s.copyFrom (bufferOf s.cache e + bOff) buf bLen
  { s with cache := bufCache_Release (bufCache_Write s.cache e).2 e }

/-- The bytes of the request that `O2FS_Read` goes on with, unless `off > size`. -/
def readLength (size off length : Nat) : Nat :=
  if add64 off length > size then size - off else length

/-- `O2FS_Read`. The division for `blocks`, which nothing uses, needs a block size. -/
def o2fs_Read (fn : VNode) (buf off length : Nat) (s : IoState) : Option (Int × IoState) :=
  let size := bnSize s.cache.memory (bufferOf s.cache fn.fsptr)
  if sbBlockSize s.cache.memory (bufferOf s.cache fn.vfs.fsptr) = 0 then none
  else if off > size then some (0, s)
  else
    let length := readLength size off length
    blockLoop readBlock fn (length + 1) s buf off length 0

def o2fs_Write (fn : VNode) (buf off length : Nat) (s : IoState) : Option (Int × IoState) :=
  if sbBlockSize s.cache.memory (bufferOf s.cache fn.vfs.fsptr) = 0 then none
  else if bnSize s.cache.memory (bufferOf s.cache fn.fsptr) < add64 off length then
    match o2fsGrowVNode fn (add64 off length) s.cache with
    | none => none
    | some (status, cache) =>
      if status < 0 then some (status, { s with cache := cache })
      else blockLoop writeBlock fn (length + 1) { s with cache := cache } buf off length 0
  else blockLoop writeBlock fn (length + 1) s buf off length 0

def dirProbe (memory : Memory) (dir : Nat) (name : List UInt8) (e : Nat) : Option Nat :=
  let entry := dir + BDIRENTRY_SIZE * e
  if sameString memory entry BDIR_MAGIC && sameString memory (dirName entry) name then
    some (dirObjOffset memory entry)
  else none

/-- The loop of `O2FS_Lookup` from block `b`, with `count` blocks to go, up to the object of the
entry. The block with the entry is not released when it is found. -/
def lookupLoop (dn : VNode) (name : List UInt8) :
    Nat → Nat → BufState → Option (Int × Option Nat × BufState)
  | 0, _, s => some (-1, none, s)
  | count + 1, b, s =>
    let entryPerBlock := toInt32 (sbBlockSize s.memory (bufferOf s dn.vfs.fsptr) / BDIRENTRY_SIZE)
    match o2fsResolveBuf dn b s with
    | (status, entry, s) =>
      if status ≠ 0 then some (status, none, s)
      else
        match entry with
        | none => none
        | some e =>
          match Search.firstHit (dirProbe s.memory (bufferOf s e) name) entryPerBlock.toNat with
          | some offset => some (0, some offset, s)
          | none => lookupLoop dn name count (b + 1) (bufCache_Release s e)

def o2fs_Lookup (dn : VNode) (name : List UInt8) (s : BufState) :
    Option (Int × Option VNode × BufState) :=
  let blockSize := sbBlockSize s.memory (bufferOf s dn.vfs.fsptr)
  if blockSize = 0 then none
  else
    match lookupLoop dn name (blocksOf (bnSize s.memory (bufferOf s dn.fsptr)) blockSize) 0 s with
    | none => none
    | some (status, none, s) => some (status, none, s)
    | some (_, some offset, s) => (o2fsLoadVNode dn.vfs offset s).map (fun (fn, s) => (0, fn, s))

structure Stat where
  st_ino : Nat
  st_size : Nat
  st_blocks : Nat
  st_blksize : Nat

def o2fs_Stat (fn : VNode) (s : BufState) : Option Stat :=
  let blockSize := sbBlockSize s.memory (bufferOf s fn.vfs.fsptr)
  let size := bnSize s.memory (bufferOf s fn.fsptr)
  if blockSize = 0 then none
  else some ⟨(s.entry fn.fsptr).diskOffset, size, blocksOf size blockSize, blockSize⟩

/-- `sizeof(struct dirent)` and the address of `de->d_name`. -/
def DIRENT_SIZE : Nat := 272

def NAME_MAX : Nat := 256

def d_name (de : Nat) : Nat := de + 12

def strcpy (memory : Memory) (dest source size : Nat) : Option Memory :=
  (Search.firstHit (fun i => if memory (source + i) == 0 then some i else none) size).map
    (fun len => copyBytes memory dest memory source (len + 1))

/-- The loop of `O2FS_ReadDir`. `dirEntry` and `de` are the addresses of its local
variables; the result is the status with the new offset. -/
def readDirLoop (fn : VNode) (dirEntry de : Nat) :
    Nat → IoState → Nat → Nat → Nat → Nat → Option (Int × Nat × IoState)
  | 0, _, _, _, _, _ => none
  | rounds + 1, s, buf, len, off, count =>
    let size := bnSize s.cache.memory (bufferOf s.cache fn.fsptr)
    if len < DIRENT_SIZE then some (count, off, s)
    else if off = size then some (count, off, s)
    else if off > size then some (-EINVAL, off, s)
    else
      match o2fs_Read fn dirEntry off BDIRENTRY_SIZE s with
      | none => none
      | some (status, s) =>
        if status ≠ BDIRENTRY_SIZE then some (-ENOTDIR, off, s)
        else if sameBytes s.cache.memory dirEntry BDIR_MAGIC then
          match strcpy s.cache.memory (d_name de) (dirName dirEntry) NAME_MAX with
          | none => none
          | some memory =>
            match copy_Out { s with cache.memory := memory } de buf DIRENT_SIZE with
            | (status, s) =>
              if status ≠ 0 then some (status, off, s)
              else readDirLoop fn dirEntry de rounds s (buf + DIRENT_SIZE)
                (len - DIRENT_SIZE) (add64 off BDIRENTRY_SIZE) (count + 1)
        else some (-ENOTDIR, off, s)

/-- `O2FS_ReadDir`. Every round takes a `struct dirent` off `len`. -/
def o2fs_ReadDir (fn : VNode) (dirEntry de buf len off : Nat) (s : IoState) :
    Option (Int × Nat × IoState) :=
  readDirLoop fn dirEntry de (len / DIRENT_SIZE + 1) s buf len off 0

end BoringOs.O2fs
