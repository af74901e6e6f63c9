import BoringOs.Errno
import BoringOs.Lib.ByteMemory
import Mathlib.Data.List.Nodup

/-! The buffer cache of `sys/kern/bufcache.c` over the disks of `sys/kern/disk.c`. Entries are named
by their index, and the intrusive `TAILQ` lists are lists of these names. A call holds `cacheLock`
for its whole body and is one step. -/

namespace BoringOs.BufCache

open ByteMemory

abbrev DiskId := Nat
abbrev EntryId := Nat

def CACHESIZE : Nat := 16*1024*1024
def HASHTABLEENTRIES : Nat := 128
def BLOCKSIZE : Nat := 16*1024

/-- The number of cache entries, `CACHESIZE/BLOCKSIZE`. -/
def CACHEENTRIES : Nat := CACHESIZE / BLOCKSIZE

theorem blockSize_pos : 0 < BLOCKSIZE := by decide

structure BufCacheEntry where
  disk : Option DiskId
  diskOffset : Nat
  refCount : Nat
  buffer : Nat
  deriving DecidableEq

structure DiskWrite where
  disk : DiskId
  offset : Nat
  data : Memory

/-- The cache, the memory behind `diskBuf` and the disks. The statuses of the
coming transfers are an input: `readStatus n` is what the driver reports for the
`n`-th read from now on. `writes` is the sequence of completed block writes and
`noSpace` counts the `No space left!` messages. -/
structure BufState where
  entry : EntryId → BufCacheEntry
  hashTable : Nat → List EntryId
  lruList : List EntryId
  memory : Memory
  cacheHit : Nat
  cacheMiss : Nat
  cacheAlloc : Nat
  noSpace : Nat
  disk : DiskId → Memory
  readStatus : Nat → Int
  writeStatus : Nat → Int
  writes : List DiskWrite

def diskRead (s : BufState) (disk : DiskId) (buf offset length : Nat) : Int × BufState :=
  let status := s.readStatus 0
  let issued := { s with readStatus := fun n => s.readStatus (n + 1) }
  if status = 0 then
    (0, { issued with memory := copyBytes s.memory buf (s.disk disk) offset length })
  else (status, issued)

def diskWrite (s : BufState) (disk : DiskId) (buf offset length : Nat) : Int × BufState :=
  let status := s.writeStatus 0
  let issued := { s with writeStatus := fun n => s.writeStatus (n + 1) }
  if status = 0 then
    (0, { issued with
      disk := Function.update s.disk disk
        (copyBytes (s.disk disk) offset s.memory buf length)
      writes := s.writes ++ [⟨disk, offset, fun index => s.memory (buf + index)⟩] })
  else (status, issued)

def bufCacheInit (bufBase : Nat) (memory : Memory) (disk : DiskId → Memory)
    (readStatus writeStatus : Nat → Int) : BufState where
  entry i := ⟨none, 0, 0, bufBase + BLOCKSIZE * i⟩
  hashTable _ := []
  lruList := List.range CACHEENTRIES
  memory := memory
  cacheHit := 0
  cacheMiss := 0
  cacheAlloc := 0
  noSpace := 0
  disk := disk
  readStatus := readStatus
  writeStatus := writeStatus
  writes := []

def BufCacheEntry.matches (e : BufCacheEntry) (disk : DiskId) (diskOffset : Nat) : Bool :=
  e.disk == some disk && e.diskOffset == diskOffset

/-- Assign `e->refCount`. -/
def recount (entry : EntryId → BufCacheEntry) (e : EntryId) (n : Nat) : EntryId → BufCacheEntry :=
  Function.update entry e { entry e with refCount := n }

/-- The body of a hit: count the reference and take the entry off the LRU list
when it is the first one. -/
def retainEntry (s : BufState) (e : EntryId) : BufState :=
  let refCount := (s.entry e).refCount + 1
  { s with
    entry := recount s.entry e refCount
    lruList := if refCount = 1 then s.lruList.erase e else s.lruList }

def bufCacheLookup (s : BufState) (disk : DiskId) (diskOffset : Nat) :
    Int × Option EntryId × BufState :=
  match (s.hashTable (diskOffset % HASHTABLEENTRIES)).find?
      (fun e => (s.entry e).matches disk diskOffset) with
  | some e => (0, some e, retainEntry s e)
  | none => (ENOENT, none, s)

def unhashEntry (s : BufState) (e : EntryId) : BufState :=
  match (s.entry e).disk with
  | none => s
  | some _ =>
    let chain := (s.entry e).diskOffset % HASHTABLEENTRIES
    { s with hashTable := Function.update s.hashTable chain ((s.hashTable chain).erase e) }

def rehashEntry (s : BufState) (e : EntryId) (disk : DiskId) (diskOffset : Nat) : BufState :=
  let chain := diskOffset % HASHTABLEENTRIES
  { s with
    entry := Function.update s.entry e
      { s.entry e with disk := some disk, diskOffset := diskOffset, refCount := 1 }
    hashTable := Function.update s.hashTable chain (e :: s.hashTable chain) }

def bufCacheAlloc (s : BufState) (disk : DiskId) (diskOffset : Nat) :
    Int × Option EntryId × BufState :=
  match s.lruList with
  | [] => (ENOMEM, none, { s with noSpace := s.noSpace + 1 })
  | e :: rest =>
    (0, some e, rehashEntry (unhashEntry { s with lruList := rest } e) e disk diskOffset)

def bufCache_Alloc (s : BufState) (disk : DiskId) (diskOffset : Nat) :
    Int × Option EntryId × BufState :=
  match bufCacheLookup s disk diskOffset with
  | (status, some e, s) => (status, some e, { s with cacheAlloc := s.cacheAlloc + 1 })
  | (_, none, s) =>
    match bufCacheAlloc s disk diskOffset with
    | (status, entry, s) => (status, entry, { s with cacheAlloc := s.cacheAlloc + 1 })

def bufCache_Release (s : BufState) (e : EntryId) : BufState :=
  let refCount := (s.entry e).refCount - 1
  { s with
    entry := recount s.entry e refCount
    lruList := if refCount = 0 then s.lruList ++ [e] else s.lruList }

def bufCache_Read (s : BufState) (disk : DiskId) (diskOffset : Nat) :
    Int × Option EntryId × BufState :=
  match bufCacheLookup s disk diskOffset with
  | (status, some e, s) => (status, some e, { s with cacheHit := s.cacheHit + 1 })
  | (_, none, s) =>
    match bufCacheAlloc { s with cacheMiss := s.cacheMiss + 1 } disk diskOffset with
    | (status, none, s) => (status, none, s)
    | (_, some e, s) =>
      let (status, s) := diskRead s disk (s.entry e).buffer diskOffset BLOCKSIZE
      (status, some e, s)

def bufCache_Write (s : BufState) (e : EntryId) : Int × BufState :=
  match (s.entry e).disk with
  | none => (0, s)
  | some disk => diskWrite s disk (s.entry e).buffer (s.entry e).diskOffset BLOCKSIZE

end BoringOs.BufCache
