import BoringOs.O2fs

/-! The program `sbin/newfs_o2fs`, which makes an O2FS volume from a manifest. Structures are built
as raw bytes at the offsets of `o2fs.h`. `none` is an exit with an error or an overrun of one of the
program's arrays. The program is built with `NDEBUG`, so its assertions are not there. `lseek` and
`pwrite` on the disk do not fail, and `read` of a source file returns full blocks up to the end of
the file. -/

namespace BoringOs.Newfs

open ByteMemory O2fs

def blockSize : Nat := 16*1024
def MAXBLOCKSIZE : Nat := 64*1024*1024
def MAXNAMELEN : Nat := 255

/-- The sizes of `BNode` and `SuperBlock`. -/
def BNODE_SIZE : Nat := 4120
def SUPERBLOCK_SIZE : Nat := 144

/-- What the program finds outside: source files by path, the bytes in fresh heap
memory, and the results of its calls of `time`. -/
structure Env where
  files : List UInt8 → Option (List UInt8)
  heap : Memory
  clock : Nat → Nat

/-- The disk with the file offset of `diskfd`, the text from `tokenCur` on, and the
number of calls of `time` so far. -/
structure State where
  disk : Memory
  seek : Nat
  text : List UInt8
  ticks : Nat

inductive Token where
  | eof
  | dir
  | fin
  | file
  | string
  deriving DecidableEq

def isBlank (c : UInt8) : Bool := c == 32 || c == 9 || c == 10 || c == 13

def isTokenChar (c : UInt8) : Bool := !isBlank c && c != 0

def DIR : List UInt8 := text ['D', 'I', 'R']
def END : List UInt8 := text ['E', 'N', 'D']
def FILE : List UInt8 := text ['F', 'I', 'L', 'E']
def SLASH : UInt8 := 47

def classify (tokenString : List UInt8) : Token :=
  if tokenString = [] then .eof
  else if tokenString = DIR then .dir
  else if tokenString = END then .fin
  else if tokenString = FILE then .file
  else .string

/-- `GetToken` with `tokenString` as a result. A token of 512 bytes or more overruns it. -/
def getToken (s : State) : Option (Token × List UInt8 × State) :=
  let cur := s.text.dropWhile isBlank
  let tokenString := cur.takeWhile isTokenChar
  if tokenString.length < 512 then
    some (classify tokenString, tokenString, { s with text := cur.dropWhile isTokenChar })
  else none

def zerobuf : Memory := fun _ => 0

/-- For a longer buffer `blockSize - len` wraps around, and the second `pwrite` overruns `zerobuf`. -/
def flushBlock (disk : Memory) (offset : Nat) (buf : Memory) (len : Nat) : Option Memory :=
  if len ≤ blockSize then
    some (copyBytes (copyBytes disk offset buf 0 len) (offset + len) zerobuf 0 (blockSize - len))
  else none

def appendBlock (s : State) (buf : Memory) (len : Nat) : Option (Nat × State) :=
  (flushBlock s.disk s.seek buf len).map (fun disk =>
    (s.seek, { s with disk := disk, seek := s.seek + blockSize }))

/-- A zeroed `BNode` with its magic and version. -/
def blankNode : Memory :=
  let node := storeBytes zerobuf 0 BNODE_MAGIC
  let node := storeLE node 8 2 O2FS_VERSION_MAJOR
  storeLE node 10 2 O2FS_VERSION_MINOR

/-- The copy loop of `AddFile`, with `slots` entries of `node.direct` left. -/
def copyFile : Nat → List UInt8 → Memory → State → Option (Memory × State)
  | 0, content, node, s => if content.isEmpty then some (node, s) else none
  | slots + 1, content, node, s =>
    if content.isEmpty then some (node, s)
    else
      let tempbuf := content.take blockSize
      match appendBlock s (bytesAt tempbuf) tempbuf.length with
      | none => none
      | some (offset, s) =>
        let node := storeLE node (directAt 0 (O2FS_DIRECT_PTR - (slots + 1))) 8 offset
        let node := storeLE node 16 8 (add64 (bnSize node 0) tempbuf.length)
        copyFile slots (content.drop blockSize) node s

/-- `AddFile`; the result is the offset in the `ObjID`. -/
def addFile (env : Env) (file : List UInt8) (s : State) : Option (Nat × State) :=
  match env.files file with
  | none => none
  | some content =>
    match copyFile O2FS_DIRECT_PTR content blankNode s with
    | none => none
    | some (node, s) => appendBlock s node BNODE_SIZE

/-- Fill in `entries[entry]` for an object. -/
def fillEntry (entries : Memory) (entry : Nat) (name : List UInt8) (offset ctime mtime : Nat) :
    Memory :=
  let dir := BDIRENTRY_SIZE * entry
  let entries := copyBytes entries dir zerobuf 0 BDIRENTRY_SIZE
  let entries := storeBytes entries (dirName dir) (name.take MAXNAMELEN)
  let entries := storeLE entries (dir + 48) 8 offset
  let entries := storeBytes entries dir BDIR_MAGIC
  let entries := storeLE entries (dir + 72) 8 ctime
  let entries := storeLE entries (dir + 80) 8 mtime
  let entries := storeBytes entries (dir + 88) (text ['r', 'o', 'o', 't'])
  storeBytes entries (dir + 120) (text ['r', 'o', 'o', 't'])

/-- `fillEntry` with the two calls of `time`. -/
def addEntry (env : Env) (entries : Memory) (entry : Nat) (name : List UInt8) (offset : Nat)
    (s : State) : Memory × State :=
  (fillEntry entries entry name offset (env.clock s.ticks) (env.clock (s.ticks + 1)),
    { s with ticks := s.ticks + 2 })

/-- The end of `AddDirectory`: the entries and the block node go to disk. -/
def writeDirectory (entries : Memory) (entry : Nat) (s : State) : Option (Nat × State) :=
  let size := BDIRENTRY_SIZE * entry
  match appendBlock s entries size with
  | none => none
  | some (offset, s) =>
    let node := storeLE blankNode 16 8 size
    appendBlock s (storeLE node (directAt 0 0) 8 offset) BNODE_SIZE

/-- The loop of `AddDirectory` with `entry` entries done. The array has room for 128 of
them. Every round reads a token, so the length of the text bounds the rounds. -/
def addDirectory (env : Env) : Nat → Memory → Nat → State → Option (Nat × State)
  | 0, _, _, _ => none
  | rounds + 1, entries, entry, s =>
    if 128 ≤ entry then none
    else
      match getToken s with
      | some (.file, _, s) =>
        match getToken s with
        | none => none
        | some (_, name, s) =>
          match getToken s with
          | none => none
          | some (_, file, s) =>
            match addFile env file s with
            | none => none
            | some (offset, s) =>
              match addEntry env entries entry name offset s with
              | (entries, s) => addDirectory env rounds entries (entry + 1) s
      | some (.dir, _, s) =>
        match getToken s with
        | none => none
        | some (_, name, s) =>
          match addDirectory env rounds env.heap 0 s with
          | none => none
          | some (offset, s) =>
            match addEntry env entries entry name offset s with
            | (entries, s) => addDirectory env rounds entries (entry + 1) s
      | some (.fin, _, s) => writeDirectory entries entry s
      | _ => none

def addRoot (env : Env) (s : State) : Option (Nat × State) :=
  match getToken s with
  | some (.dir, _, s) =>
    match getToken s with
    | some (.string, tokenString, s) =>
      if tokenString = [SLASH] then
        match addDirectory env (s.text.length + 1) env.heap 0 s with
        | none => none
        | some (root, s) =>
          match getToken s with
          | some (.eof, _, s) => some (root, s)
          | _ => none
      else none
    | _ => none
  | _ => none

def bitmapBytes (off : Nat) : Memory := fun i =>
  if i < off / 8 then 0xFF
  else if i = off / 8 then
    (List.range (off % 8)).foldl (fun byte i => byte ||| UInt8.ofNat (2 ^ i)) 0
  else 0

/-- `tempbuf` has `MAXBLOCKSIZE` bytes. -/
def blockBitmap (bitmapSize : Nat) (s : State) : Option Memory :=
  let off := s.seek / blockSize
  if off ≤ 8 * MAXBLOCKSIZE ∧ blockSize * bitmapSize ≤ MAXBLOCKSIZE then
    (List.range bitmapSize).foldlM (fun disk i => flushBlock disk (blockSize + blockSize * i)
      (fun index => bitmapBytes off (blockSize * i + index)) blockSize) s.disk
  else none

def superblockBytes (diskSize bitmapSize root : Nat) : Memory :=
  let sb := storeBytes zerobuf 0 SUPERBLOCK_MAGIC
  let sb := storeLE sb 8 2 O2FS_VERSION_MAJOR
  let sb := storeLE sb 10 2 O2FS_VERSION_MINOR
  let sb := storeLE sb 24 8 (diskSize / blockSize)
  let sb := storeLE sb 32 8 blockSize
  let sb := storeLE sb 40 8 bitmapSize
  let sb := storeLE sb 48 8 blockSize
  storeLE sb 104 8 root

/-- `ROUND_UP(diskSize / (blockSize * 8), blockSize)`. -/
def bitmapSizeOf (diskSize : Nat) : Nat :=
  (diskSize / (blockSize * 8) + blockSize - 1) / blockSize

/-- `diskSize = atol(optarg) * 1024 * 1024`. -/
def diskSizeOf (megabytes : Nat) : Nat := mul64 megabytes (1024 * 1024)

def skipBitmap (bitmapSize : Nat) (s : State) : Option State :=
  (List.range bitmapSize).foldlM (fun s _ => (appendBlock s zerobuf blockSize).map Prod.snd) s

def sizeDisk (diskSize : Nat) (fresh : Bool) (disk : Memory) : Option Memory :=
  if fresh then
    if diskSize = 0 then none else flushBlock disk (diskSize - blockSize) zerobuf blockSize
  else some disk

def addManifest (env : Env) (manifest : Option (List UInt8)) (s : State) : Option (Nat × State) :=
  match manifest with
  | none => some (0, s)
  | some _ => addRoot env s

def writeVolume (env : Env) (diskSize bitmapSize : Nat) (fresh : Bool)
    (manifest : Option (List UInt8)) (disk : Memory) : Option Memory :=
  match sizeDisk diskSize fresh disk with
  | none => none
  | some disk =>
    match skipBitmap bitmapSize ⟨disk, blockSize, manifest.getD [], 0⟩ with
    | none => none
    | some s =>
      match addManifest env manifest s with
      | none => none
      | some (root, s) =>
        match blockBitmap bitmapSize s with
        | none => none
        | some disk =>
          flushBlock disk 0 (superblockBytes diskSize bitmapSize root) SUPERBLOCK_SIZE

/-- `main` after its options: the size in megabytes, whether the disk image is a new
file, and the manifest if there is one. The result is the disk. -/
def newfs (env : Env) (megabytes : Nat) (fresh : Bool) (manifest : Option (List UInt8))
    (disk : Memory) : Option Memory :=
  writeVolume env (diskSizeOf megabytes) (bitmapSizeOf (diskSizeOf megabytes)) fresh manifest disk

end BoringOs.Newfs
