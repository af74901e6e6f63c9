import BoringOs.NewfsManifest
import BoringOs.O2fsMount

/-! The disk that `newfs_o2fs` writes holds every entry of the manifest, as the kernel's accessors
read it. -/

namespace BoringOs.Newfs

open ByteMemory BufCache O2fs List Nat

structure NodeAt (img : Memory) (place first count size : Nat) : Prop where
  accepted : bnodeOk img place = true
  size : bnSize img place = size
  direct : ∀ i < 64, bnDirect img place i = if i < count then first + i * BLOCKSIZE else 0

structure EntryAt (img : Memory) (dir : Nat) (name : List UInt8) (offset : Nat) : Prop where
  magic : sameString img dir BDIR_MAGIC = true
  name : ∀ j ≤ name.length, img (dirName dir + j) = bytesAt name j
  object : dirObjOffset img dir = offset

structure FileAt (img : Memory) (start : Nat) (content : List UInt8) : Prop where
  node : NodeAt img (start + blockCeil content.length * BLOCKSIZE) start (blockCeil content.length)
    content.length
  bytes : ∀ i < content.length, img (start + i) = bytesAt content i

def ListingAt (img : Memory) (block : Nat) (listing : List (List UInt8 × Nat)) : Prop :=
  ∀ k name offset, listing[k]? = some (name, offset) →
    EntryAt img (block + BDIRENTRY_SIZE * k) name offset

structure DirAt (img : Memory) (block : Nat) (listing : List (List UInt8 × Nat)) : Prop where
  node : NodeAt img (block + BLOCKSIZE) block 1 (BDIRENTRY_SIZE * listing.length)
  entries : ListingAt img block listing
  blank : ∀ index, BDIRENTRY_SIZE * listing.length ≤ index → index < BLOCKSIZE →
    img (block + index) = 0

/-- All objects below a directory are on disk, from an offset on. -/
def Holds (env : Env) (img : Memory) : Entries → Nat → Prop
  | .nil, _ => True
  | .file _ path rest, start =>
    let count := blockCeil (contentOf env path).length
    FileAt img start (contentOf env path) ∧ Holds env img rest (start + (count + 1) * BLOCKSIZE)
  | .dir _ entries rest, start =>
    let count := entries.blocks env
    Holds env img entries start ∧
      DirAt img (start + count * BLOCKSIZE) (entries.listing env start) ∧
      Holds env img rest (start + (count + 2) * BLOCKSIZE)

theorem entry_inside {k : Nat} (bound : k < 32) :
    BDIRENTRY_SIZE * k + BDIRENTRY_SIZE ≤ BLOCKSIZE := by
  unfold BDIRENTRY_SIZE BLOCKSIZE
  omega

variable {s before : State} {env : Env} {start address place len : Nat} {array : Memory} {listing done : List (List UInt8 × Nat)}

section

variable {left right : Memory}

theorem NodeAt.transfer {start place first count size : Nat}
    (node : NodeAt right place first count size)
    (same : MatchAt left start right place BNODE_SIZE) : NodeAt left start first count size := by
  have length : BNODE_SIZE = 4120 := rfl
  constructor
  · rw [bnodeOk_match same (by omega)]
    exact node.accepted
  · rw [← node.size]
    exact loadLE_match same (by omega)
  · intro i bound
    rw [← node.direct i bound, bnDirect, bnDirect, directAt, directAt, add_assoc, add_assoc]
    exact loadLE_match same (by omega)

theorem EntryAt.transfer {dir place : Nat} {name : List UInt8} {offset : Nat}
    (entry : EntryAt right place name offset) (short : name.length ≤ MAXNAMELEN)
    (same : MatchAt left dir right place BDIRENTRY_SIZE) : EntryAt left dir name offset := by
  have length : MAXNAMELEN = 255 := rfl
  have total : BDIRENTRY_SIZE = 512 := rfl
  constructor
  · rw [← entry.magic]
    exact sameBytes_match same (BDIR_MAGIC ++ [0]) 0 (by decide)
  · intro j inside
    rw [← entry.name j inside, dirName, dirName, add_assoc, add_assoc]
    exact same (256 + j) (by omega)
  · rw [← entry.object]
    exact loadLE_match same (by omega)

theorem FileAt.keep {content : List UInt8} (file : FileAt right start content)
    (same : ∀ address, start ≤ address →
      address < start + (blockCeil content.length + 1) * BLOCKSIZE → left address = right address) :
    FileAt left start content := by
  have inside := le_blockCeil content.length
  rw [add_mul, one_mul] at same
  constructor
  · apply file.node.transfer
    intro index less
    have whole : BNODE_SIZE ≤ BLOCKSIZE := by decide
    exact same _ (by omega) (by omega)
  · intro i less
    rw [← file.bytes i less]
    exact same _ (by omega) (by omega)

theorem DirAt.keep {block : Nat} (dir : DirAt right block listing)
    (few : listing.length ≤ 31) (short : ∀ entry ∈ listing, entry.1.length ≤ MAXNAMELEN)
    (same : ∀ address, block ≤ address → address < block + 2 * BLOCKSIZE →
      left address = right address) : DirAt left block listing := by
  constructor
  · apply dir.node.transfer
    intro index less
    have whole : BNODE_SIZE ≤ BLOCKSIZE := by decide
    exact same _ (by omega) (by omega)
  · intro k name offset found
    have inside : k < listing.length := (List.getElem?_eq_some_iff.mp found).1
    have room := entry_inside (k := k) (by omega)
    apply (dir.entries k name offset found).transfer
    · exact short _ (mem_of_getElem? found)
    · intro index less
      exact same _ (by omega) (by omega)
  · intro index low high
    rw [← dir.blank index low high]
    exact same _ (by omega) (by omega)

theorem Entries.Valid.short {entries : Entries} (valid : entries.Valid env) :
    ∀ name ∈ entries.names, name.length ≤ MAXNAMELEN := by
  induction entries with
  | nil => simp [Entries.names]
  | file name path rest ih =>
    intro other member
    rcases mem_cons.mp member with rfl | later
    · exact valid.1.short
    · exact ih valid.2.2 other later
  | dir name entries rest _ ih =>
    intro other member
    rcases mem_cons.mp member with rfl | later
    · exact valid.1.short
    · exact ih valid.2.2.2 other later

theorem Entries.listing_short {entries : Entries} (valid : entries.Valid env)
    (start : Nat) : ∀ entry ∈ entries.listing env start, entry.1.length ≤ MAXNAMELEN := by
  intro entry member
  apply valid.short
  rw [← entries.listing_names env start]
  exact mem_map_of_mem member

theorem Entries.listing_length (env : Env) (entries : Entries) (start : Nat) :
    (entries.listing env start).length = entries.names.length := by
  rw [← entries.listing_names env start, length_map]

theorem Holds.keep {entries : Entries} (valid : entries.Valid env)
    (holds : Holds env right entries start)
    (same : ∀ address, start ≤ address → address < start + entries.blocks env * BLOCKSIZE →
      left address = right address) : Holds env left entries start := by
  induction entries generalizing start with
  | nil => trivial
  | file name path rest ih =>
    obtain ⟨file, others⟩ := holds
    simp only [Entries.blocks, add_mul, one_mul] at same
    refine ⟨file.keep ?_, ih valid.2.2 others ?_⟩
    · intro address low high
      rw [add_mul, one_mul] at high
      exact same address low (by omega)
    · intro address low high
      rw [add_mul, one_mul] at low high
      exact same address (by omega) (by omega)
  | dir name entries rest ihBelow ihRest =>
    obtain ⟨below, directory, others⟩ := holds
    obtain ⟨_, listable, validBelow, validRest⟩ := valid
    simp only [Entries.blocks, add_mul] at same
    refine ⟨ihBelow validBelow below ?_, directory.keep ?_ ?_ ?_, ihRest validRest others ?_⟩
    · intro address low high
      exact same address low (by omega)
    · rw [Entries.listing_length]
      exact listable.few
    · exact Entries.listing_short validBelow start
    · intro address low high
      exact same address (by omega) (by omega)
    · intro address low high
      rw [add_mul] at low high
      exact same address (by omega) (by omega)

end

structure Appended (s t : State) (buf : Memory) (len : Nat) : Prop where
  seek : t.seek = s.seek + BLOCKSIZE
  text : t.text = s.text
  bytes : ∀ index < len, t.disk (s.seek + index) = buf index
  padding : ∀ index, len ≤ index → index < BLOCKSIZE → t.disk (s.seek + index) = 0
  below : ∀ address < s.seek, t.disk address = s.disk address

theorem flushBlock_flushes (disk buf : Memory) (offset : Nat) {len : Nat} (fits : len ≤ BLOCKSIZE) :
    ∃ after, flushBlock disk offset buf len = some after ∧
      (∀ index < len, after (offset + index) = buf index) ∧
      (∀ index, len ≤ index → index < BLOCKSIZE → after (offset + index) = 0) ∧
      ∀ address, address < offset ∨ offset + BLOCKSIZE ≤ address → after address = disk address := by
  refine ⟨_, if_pos fits, ?_, ?_, ?_⟩
  · intro index inside
    rw [copyBytes_outside _ _ _ _ _ _ (by omega), copyBytes_offset _ _ _ _ _ _ inside, zero_add]
  · intro index low high
    have size : blockSize = BLOCKSIZE := rfl
    rw [copyBytes_inside _ _ _ _ _ _ (by omega) (by omega)]
    rfl
  · intro address outside
    have size : blockSize = BLOCKSIZE := rfl
    rw [copyBytes_outside _ _ _ _ _ _ (by omega), copyBytes_outside _ _ _ _ _ _ (by omega)]

theorem appendBlock_appends (s : State) (buf : Memory) (fits : len ≤ BLOCKSIZE) :
    ∃ t, appendBlock s buf len = some (s.seek, t) ∧ Appended s t buf len := by
  obtain ⟨after, flushed, bytes, padding, outside⟩ := flushBlock_flushes s.disk buf s.seek fits
  refine ⟨{ s with disk := after, seek := s.seek + blockSize }, ?_, rfl, rfl, bytes, padding, ?_⟩
  · rw [appendBlock, flushed]
    rfl
  · intro address less
    exact outside address (.inl less)

theorem blankNode_node (first : Nat) : NodeAt blankNode 0 first 0 0 := by
  have zero : ∀ i : Fin 64, bnDirect blankNode 0 i = 0 := by decide
  refine ⟨by decide, by decide, ?_⟩
  intro i bound
  rw [if_neg (Nat.not_lt_zero i)]
  exact zero ⟨i, bound⟩

theorem NodeAt.add {node : Memory} {first count size : Nat} (blocks : NodeAt node 0 first count size)
    {value larger : Nat} (next : value = first + count * BLOCKSIZE) (small : value < word64)
    (bound : larger < word64) :
    NodeAt (storeLE (storeLE node (directAt 0 count) 8 value) 16 8 larger) 0 first (count + 1)
      larger := by
  have header : MatchAt (storeLE (storeLE node (directAt 0 count) 8 value) 16 8 larger) 0 node 0
      12 := by
    intro index inside
    rw [storeLE_outside _ _ _ _ _ (by omega), storeLE_outside _ _ _ _ _ (by unfold directAt; omega)]
  constructor
  · rw [bnodeOk_match header le_rfl]
    exact blocks.accepted
  · exact bnSize_store _ 0 bound
  · intro i inside
    have kept : bnDirect (storeLE (storeLE node (directAt 0 count) 8 value) 16 8 larger) 0 i =
        bnDirect (storeLE node (directAt 0 count) 8 value) 0 i := bnDirect_store_size _ 0 i larger
    rw [kept, bnDirect_store node 0 small]
    by_cases last : i = count
    · rw [if_pos last, if_pos (by omega), last]
      exact next
    · rw [if_neg last, blocks.direct i inside]
      by_cases earlier : i < count
      · rw [if_pos earlier, if_pos (by omega)]
      · rw [if_neg earlier, if_neg (by omega)]

structure Copied (content : List UInt8) (before : State) (count : Nat) (node : Memory) (s : State) :
  Prop where
  most : count ≤ blockCeil content.length
  seek : s.seek = before.seek + count * BLOCKSIZE
  text : s.text = before.text
  node : NodeAt node 0 before.seek count (min (count * BLOCKSIZE) content.length)
  bytes : ∀ k < min (count * BLOCKSIZE) content.length, s.disk (before.seek + k) = bytesAt content k
  below : ∀ address < before.seek, s.disk address = before.disk address

theorem bytesAt_chunk (content : List UInt8) (start size : Nat) {index : Nat} (inside : index < size) :
    bytesAt ((content.drop start).take size) index = bytesAt content (start + index) := by
  simp only [bytesAt, getD_eq_getElem?_getD, getElem?_take, inside, ↓reduceIte,
    getElem?_drop]

theorem Copied.next {content : List UInt8} {before s t : State} {count : Nat} {node : Memory}
    (copied : Copied content before count node s) (more : count * BLOCKSIZE < content.length)
    (fits : content.length ≤ 64 * BLOCKSIZE)
    (small : before.seek + blockCeil content.length * BLOCKSIZE < word64)
    (appended : Appended s t (bytesAt ((content.drop (count * BLOCKSIZE)).take BLOCKSIZE))
      ((content.drop (count * BLOCKSIZE)).take BLOCKSIZE).length) :
    Copied content before (count + 1)
      (storeLE (storeLE node (directAt 0 count) 8 s.seek) 16 8
        (add64 (bnSize (storeLE node (directAt 0 count) 8 s.seek) 0)
          ((content.drop (count * BLOCKSIZE)).take BLOCKSIZE).length)) t := by
  have below := lt_blockCeil.mpr more
  have seek := copied.seek
  have ends := Nat.mul_le_mul_right BLOCKSIZE below.le
  have near : s.seek < word64 := by omega
  have length : ((content.drop (count * BLOCKSIZE)).take BLOCKSIZE).length =
      min BLOCKSIZE (content.length - count * BLOCKSIZE) := by
    rw [length_take, length_drop]
  have whole : min (count * BLOCKSIZE) content.length = count * BLOCKSIZE := min_eq_left more.le
  have grown : count * BLOCKSIZE + min BLOCKSIZE (content.length - count * BLOCKSIZE) =
      min ((count + 1) * BLOCKSIZE) content.length := by
    rw [← Nat.add_min_add_left, Nat.add_sub_cancel' more.le, succ_mul]
  have large : min ((count + 1) * BLOCKSIZE) content.length < word64 :=
    (min_le_right ..).trans_lt (fits.trans_lt (by decide))
  rw [length] at appended ⊢
  rw [bnSize_store_direct, copied.node.size, whole, add64_of_lt (by rwa [grown]), grown]
  constructor
  · exact below
  · rw [appended.seek, seek, succ_mul, add_assoc]
  · rw [appended.text]
    exact copied.text
  · exact copied.node.add seek near large
  · intro k inside
    by_cases old : k < count * BLOCKSIZE
    · rw [appended.below _ (by rw [seek]; exact Nat.add_lt_add_left old _)]
      exact copied.bytes k (old.trans_eq whole.symm)
    · have held := not_lt.mp old
      rw [← grown] at inside
      have chunk := Nat.sub_lt_left_of_lt_add held inside
      have place : before.seek + k = s.seek + (k - count * BLOCKSIZE) := by
        rw [seek, add_assoc, Nat.add_sub_cancel' held]
      rw [place, appended.bytes _ chunk, bytesAt_chunk _ _ _ (chunk.trans_le (min_le_left ..)),
        Nat.add_sub_cancel' held]
  · intro address less
    rw [appended.below _ (less.trans_le (seek ▸ Nat.le_add_right ..))]
    exact copied.below address less

theorem copyFile_copies {content : List UInt8} (fits : content.length ≤ 64 * BLOCKSIZE)
    (small : before.seek + blockCeil content.length * BLOCKSIZE < word64) (slots : Nat) :
    ∀ count node s, slots + count = 64 → Copied content before count node s →
      ∃ final t, copyFile slots (content.drop (count * BLOCKSIZE)) node s = some (final, t) ∧
        Copied content before (blockCeil content.length) final t := by
  have most := blockCeil_le fits
  induction slots with
  | zero =>
    intro count node s total copied
    have last : count = blockCeil content.length := by
      have := copied.most
      omega
    have empty : content.drop (count * BLOCKSIZE) = [] := by
      apply drop_eq_nil_of_le
      rw [show count = 64 by omega]
      exact fits
    rw [copyFile, empty]
    exact ⟨node, s, rfl, last ▸ copied⟩
  | succ slots ih =>
    intro count node s total copied
    have size : blockSize = BLOCKSIZE := rfl
    rw [copyFile, size]
    by_cases more : count * BLOCKSIZE < content.length
    · have nonempty : (content.drop (count * BLOCKSIZE)).isEmpty = false := by
        rw [isEmpty_eq_false_iff, ← length_pos_iff, length_drop]
        omega
      have index : O2FS_DIRECT_PTR - (slots + 1) = count := by
        unfold O2FS_DIRECT_PTR
        omega
      obtain ⟨t, result, appended⟩ := appendBlock_appends s
        (bytesAt ((content.drop (count * BLOCKSIZE)).take BLOCKSIZE))
        (length_take_le BLOCKSIZE (content.drop (count * BLOCKSIZE)))
      have next := copied.next more fits small appended
      have rest : (content.drop (count * BLOCKSIZE)).drop BLOCKSIZE =
          content.drop ((count + 1) * BLOCKSIZE) := by
        rw [drop_drop, succ_mul]
      simp only [nonempty, result, index, rest]
      exact ih (count + 1) _ t (by omega) next
    · have empty : content.drop (count * BLOCKSIZE) = [] :=
        drop_eq_nil_of_le (Nat.le_of_not_lt more)
      have last : count = blockCeil content.length := by
        apply le_antisymm copied.most
        by_contra less
        exact more (lt_blockCeil.mp (by omega))
      rw [empty]
      exact ⟨node, s, rfl, last ▸ copied⟩

structure Extended (s t : State) (blocks : Nat) : Prop where
  seek : t.seek = s.seek + blocks * BLOCKSIZE
  below : ∀ address < s.seek, t.disk address = s.disk address

theorem addFile_adds {path : List UInt8} (file : ValidFile env path)
    (small : s.seek + (blockCeil (contentOf env path).length + 1) * BLOCKSIZE < word64) :
    ∃ t, addFile env path s =
        some (s.seek + blockCeil (contentOf env path).length * BLOCKSIZE, t) ∧
      t.text = s.text ∧ Extended s t (blockCeil (contentOf env path).length + 1) ∧
      FileAt t.disk s.seek (contentOf env path) := by
  obtain ⟨content, found⟩ := Option.isSome_iff_exists.mp file.present
  have same : contentOf env path = content := by rw [contentOf, found]; rfl
  rw [same] at small ⊢
  have fits : content.length ≤ 64 * BLOCKSIZE := same ▸ file.fits
  rw [succ_mul] at small
  have start : Copied content s 0 blankNode s := by
    refine ⟨Nat.zero_le _, by rw [Nat.zero_mul, Nat.add_zero], rfl, ?_, ?_, fun _ _ => rfl⟩
    · rw [Nat.zero_mul, Nat.zero_min]
      exact blankNode_node s.seek
    · intro k less
      omega
  obtain ⟨node, u, copy, copied⟩ := copyFile_copies fits (by omega) 64 0 blankNode s rfl start
  rw [Nat.zero_mul, drop_zero] at copy
  have seek := copied.seek
  obtain ⟨t, result, appended⟩ := appendBlock_appends u node
    (show BNODE_SIZE ≤ BLOCKSIZE by decide)
  have inside := le_blockCeil content.length
  refine ⟨t, ?_, appended.text.trans copied.text, ⟨?_, ?_⟩, ?_, ?_⟩
  · rw [addFile, found]
    simp only [show O2FS_DIRECT_PTR = 64 from rfl, copy, result, seek]
  · rw [appended.seek, seek, succ_mul, add_assoc]
  · intro address less
    rw [appended.below _ (by omega)]
    exact copied.below address less
  · have sized := copied.node
    rw [min_eq_right inside] at sized
    rw [← seek]
    apply sized.transfer
    intro index less
    rw [appended.bytes index less, zero_add]
  · intro i less
    rw [appended.below _ (by omega)]
    exact copied.bytes i (by omega)

theorem sameBytes_of_bytes {memory : Memory} {bytes : List UInt8}
    (agree : ∀ index < bytes.length, memory (address + index) = bytesAt bytes index) :
    sameBytes memory address bytes = true := by
  induction bytes generalizing address with
  | nil => rfl
  | cons byte rest ih =>
    have first := agree 0 (by simp)
    have others : sameBytes memory (address + 1) rest = true := by
      apply ih
      intro index inside
      have next := agree (index + 1) (by simpa using inside)
      rw [add_assoc, add_comm 1]
      exact next
    rw [sameBytes, others, Bool.and_true, beq_iff_eq]
    exact first

section

variable (entries : Memory) (entry : Nat) {name : List UInt8} (offset ctime mtime : Nat)

def entryHead (entries : Memory) (entry : Nat) (name : List UInt8) (offset : Nat) : Memory :=
  let dir := BDIRENTRY_SIZE * entry
  let entries := copyBytes entries dir zerobuf 0 BDIRENTRY_SIZE
  let entries := storeBytes entries (dirName dir) (name.take MAXNAMELEN)
  let entries := storeLE entries (dir + 48) 8 offset
  storeBytes entries dir BDIR_MAGIC

theorem fillEntry_head (outside : address < BDIRENTRY_SIZE * entry + 72 ∨
      BDIRENTRY_SIZE * entry + 124 ≤ address) :
    fillEntry entries entry name offset ctime mtime address =
      entryHead entries entry name offset address := by
  have four : (text ['r', 'o', 'o', 't']).length = 4 := rfl
  rw [fillEntry, storeBytes_outside _ _ _ _ (by omega), storeBytes_outside _ _ _ _ (by omega),
    storeLE_outside _ _ _ _ _ (by omega), storeLE_outside _ _ _ _ _ (by omega)]
  rfl

theorem fillEntry_below (below : address < BDIRENTRY_SIZE * entry) :
    fillEntry entries entry name offset ctime mtime address = entries address := by
  rw [fillEntry_head _ _ _ _ _ (by omega), entryHead, storeBytes_outside _ _ _ _ (by omega),
    storeLE_outside _ _ _ _ _ (by omega), storeBytes_outside _ _ _ _ (by unfold dirName; omega),
    copyBytes_outside _ _ _ _ _ _ (by omega)]

theorem fillEntry_entry (short : name.length ≤ MAXNAMELEN) (small : offset < word64) :
    EntryAt (fillEntry entries entry name offset ctime mtime) (BDIRENTRY_SIZE * entry) name
      offset := by
  have total : BDIRENTRY_SIZE = 512 := rfl
  have most : MAXNAMELEN = 255 := rfl
  have eight : BDIR_MAGIC.length = 8 := rfl
  have whole : name.take MAXNAMELEN = name := take_of_length_le short
  generalize place : BDIRENTRY_SIZE * entry = dir
  constructor
  · apply sameBytes_of_bytes
    intro index inside
    rw [length_append, eight, length_singleton] at inside
    rw [fillEntry_head _ _ _ _ _ (by omega), entryHead, place]
    by_cases magic : index < 8
    · rw [storeBytes_inside _ _ _ (by omega)]
      simp only [bytesAt, getD_eq_getElem?_getD]
      rw [getElem?_append_left (by omega)]
    · obtain rfl : index = 8 := by omega
      rw [storeBytes_outside _ _ _ _ (by omega), storeLE_outside _ _ _ _ _ (by omega),
        storeBytes_outside _ _ _ _ (by unfold dirName; omega),
        copyBytes_inside _ _ _ _ _ _ (by omega) (by omega)]
      rfl
  · intro j inside
    rw [fillEntry_head _ _ _ _ _ (by unfold dirName; omega), entryHead, place,
      storeBytes_outside _ _ _ _ (by unfold dirName; omega),
      storeLE_outside _ _ _ _ _ (by unfold dirName; omega), whole]
    by_cases last : j < name.length
    · exact storeBytes_inside _ _ _ last
    · rw [storeBytes_outside _ _ _ _ (by omega),
        copyBytes_inside _ _ _ _ _ _ (by unfold dirName; omega) (by unfold dirName; omega)]
      simp only [bytesAt, getD_eq_getElem?_getD]
      rw [getElem?_eq_none (by omega)]
      rfl
  · have field : MatchAt (fillEntry entries entry name offset ctime mtime) (dir + 48)
        (storeLE (storeBytes (copyBytes entries dir zerobuf 0 BDIRENTRY_SIZE) (dirName dir)
          (name.take MAXNAMELEN)) (dir + 48) 8 offset) (dir + 48) 8 := by
      intro index inside
      rw [fillEntry_head _ _ _ _ _ (by omega), entryHead, place,
        storeBytes_outside _ _ _ _ (by omega)]
    have loaded : loadLE (fillEntry entries entry name offset ctime mtime) (dir + 48 + 0) 8 = _ :=
      loadLE_match field le_rfl
    rw [add_zero] at loaded
    rw [dirObjOffset, loaded]
    exact loadLE_storeLE _ _ 8 offset small

end

theorem writeDirectory_writes (few : listing.length ≤ 31)
    (short : ∀ entry ∈ listing, entry.1.length ≤ MAXNAMELEN)
    (small : s.seek + 2 * BLOCKSIZE < word64) (entries : ListingAt array 0 listing) :
    ∃ t, writeDirectory array listing.length s = some (s.seek + BLOCKSIZE, t) ∧
      t.text = s.text ∧ Extended s t 2 ∧ DirAt t.disk s.seek listing := by
  have size : BDIRENTRY_SIZE * listing.length + BDIRENTRY_SIZE ≤ BLOCKSIZE :=
    entry_inside (lt_succ_of_le few)
  have positive : 0 < BDIRENTRY_SIZE := by decide
  have whole : BNODE_SIZE ≤ BLOCKSIZE := by decide
  have limit : BLOCKSIZE < word64 := by decide
  obtain ⟨u, first, block⟩ := appendBlock_appends s array
    (show BDIRENTRY_SIZE * listing.length ≤ BLOCKSIZE by omega)
  have seek := block.seek
  obtain ⟨t, second, node⟩ := appendBlock_appends u (storeLE (storeLE blankNode 16 8
    (BDIRENTRY_SIZE * listing.length)) (directAt 0 0) 8 s.seek) whole
  refine ⟨t, ?_, node.text.trans block.text, ⟨?_, ?_⟩, ?_, ?_, ?_⟩
  · rw [writeDirectory]
    simp only [first, second, seek]
  · rw [node.seek, seek]
    omega
  · intro address less
    rw [node.below _ (by omega), block.below _ less]
  · have start : s.seek = s.seek + 0 * BLOCKSIZE := by rw [Nat.zero_mul, add_zero]
    have bound : BDIRENTRY_SIZE * listing.length < word64 := by omega
    have filled := (blankNode_node s.seek).add start (by omega) bound
    rw [← seek]
    apply filled.transfer
    intro index less
    rw [node.bytes index less, zero_add, storeLE_comm _ 8 _ _ (by decide)]
  · intro k name offset found
    have inside : k < listing.length := (List.getElem?_eq_some_iff.mp found).1
    have ordered : BDIRENTRY_SIZE * k + BDIRENTRY_SIZE ≤ BDIRENTRY_SIZE * listing.length := by
      rw [← mul_succ]
      exact Nat.mul_le_mul_left _ inside
    apply (entries k name offset found).transfer (short _ (mem_of_getElem? found))
    intro index less
    rw [node.below _ (by omega), add_assoc, block.bytes _ (by omega), zero_add]
  · intro index low high
    rw [node.below _ (by omega)]
    exact block.padding index low high

theorem ListingAt.fill
    (listed : ListingAt array 0 done) (short : ∀ entry ∈ done, entry.1.length ≤ MAXNAMELEN)
    {name : List UInt8} {offset : Nat} (fits : name.length ≤ MAXNAMELEN) (small : offset < word64)
    (ctime mtime : Nat) :
    ListingAt (fillEntry array done.length name offset ctime mtime) 0 (done ++ [(name, offset)]) := by
  intro k other place found
  rw [zero_add]
  by_cases earlier : k < done.length
  · rw [getElem?_append_left earlier] at found
    have entry := listed k other place found
    rw [zero_add] at entry
    apply entry.transfer (short _ (mem_of_getElem? found))
    intro index less
    have ordered := Nat.mul_le_mul_left BDIRENTRY_SIZE (succ_le_of_lt earlier)
    rw [mul_succ] at ordered
    exact fillEntry_below _ _ _ _ _ (by omega)
  · have inside := (List.getElem?_eq_some_iff.mp found).1
    rw [length_append, length_singleton] at inside
    obtain rfl : k = done.length := by omega
    rw [getElem?_append_right le_rfl, Nat.sub_self] at found
    simp only [getElem?_cons_zero, Option.some.injEq, Prod.mk.injEq] at found
    obtain ⟨rfl, rfl⟩ := found
    exact fillEntry_entry _ _ _ _ _ fits small

theorem Extended.trans {s t u : State} {first second : Nat} (left : Extended s t first)
    (right : Extended t u second) : Extended s u (first + second) := by
  constructor
  · rw [right.seek, left.seek, add_mul, add_assoc]
  · intro address less
    have grown := left.seek
    rw [right.below _ (by omega), left.below _ less]

/-- The loop of `AddDirectory` when the entries in `done` are filled in and `entries` are
still to come, up to their `END`. -/
structure Pending (env : Env) (entries : Entries) (more : List (List UInt8)) (array : Memory)
  (done : List (List UInt8 × Nat)) (s : State) : Prop where
  spelled : Spelled (entries.tokens ++ END :: more) s.text
  valid : entries.Valid env
  few : done.length + entries.names.length ≤ 31
  short : ∀ entry ∈ done, entry.1.length ≤ MAXNAMELEN
  listed : ListingAt array 0 done
  small : s.seek + (entries.blocks env + 2) * BLOCKSIZE < word64

structure Written (env : Env) (entries : Entries) (more : List (List UInt8))
  (done : List (List UInt8 × Nat)) (s t : State) : Prop where
  spelled : Spelled more t.text
  extended : Extended s t (entries.blocks env + 2)
  holds : Holds env t.disk entries s.seek
  directory : DirAt t.disk (s.seek + entries.blocks env * BLOCKSIZE)
    (done ++ entries.listing env s.seek)

theorem Pending.next {rest : Entries} {more : List (List UInt8)}
    {s u : State} {name : List UInt8} {offset count : Nat}
    (listed : ListingAt array 0 done) (short : ∀ entry ∈ done, entry.1.length ≤ MAXNAMELEN)
    (few : done.length + (rest.names.length + 1) ≤ 31) (valid : rest.Valid env)
    (named : ValidName name) (spelled : Spelled (rest.tokens ++ END :: more) u.text)
    (extended : Extended s u count) (inside : offset < u.seek)
    (small : s.seek + (count + rest.blocks env + 2) * BLOCKSIZE < word64) :
    Pending env rest more (addEntry env array done.length name offset u).1
      (done ++ [(name, offset)]) (addEntry env array done.length name offset u).2 := by
  have seek := extended.seek
  simp only [add_mul] at small
  refine ⟨spelled, valid, ?_, ?_, ?_, ?_⟩
  · rw [length_append, length_singleton]
    omega
  · intro entry member
    rcases mem_append.mp member with old | new
    · exact short entry old
    · rw [mem_singleton.mp new]
      exact named.short
  · exact listed.fill short named.short (by omega) _ _
  · simp only [addEntry, add_mul, seek]
    omega

theorem addDirectory_adds (env : Env) (entries : Entries) :
    ∀ more rounds array done s, Pending env entries more array done s →
      entries.tokens.length < rounds →
      ∃ t, addDirectory env rounds array done.length s =
          some (s.seek + (entries.blocks env + 1) * BLOCKSIZE, t) ∧
        Written env entries more done s t := by
  induction entries with
  | nil =>
    intro more rounds array done s pending enough
    obtain ⟨rounds, rfl⟩ : ∃ r, rounds = r + 1 := ⟨rounds - 1, by omega⟩
    obtain ⟨source, token, rest⟩ := getToken_cons pending.spelled
    have few : done.length ≤ 31 := pending.few
    have small := pending.small
    rw [Entries.blocks, zero_add] at small
    obtain ⟨t, result, same, extended, directory⟩ := writeDirectory_writes
      (s := { s with text := source }) few pending.short small pending.listed
    refine ⟨t, ?_, ?_, ⟨extended.seek, extended.below⟩, trivial, ?_⟩
    · rw [addDirectory, if_neg (by omega), token]
      simp only [show classify END = Token.fin from rfl, result, Entries.blocks]
      rw [zero_add, one_mul]
    · rw [same]
      exact rest
    · simp only [Entries.blocks, Entries.listing, Nat.zero_mul, add_zero, append_nil]
      exact directory
  | file name path rest ih =>
    intro more rounds array done s pending enough
    obtain ⟨rounds, rfl⟩ : ∃ r, rounds = r + 1 := ⟨rounds - 1, by omega⟩
    obtain ⟨named, file, valid⟩ := pending.valid
    obtain ⟨afterFile, tokenFile, spelledName⟩ := getToken_cons pending.spelled
    obtain ⟨afterName, tokenName, spelledPath⟩ :=
      getToken_cons (s := { s with text := afterFile }) spelledName
    obtain ⟨afterPath, tokenPath, spelledRest⟩ :=
      getToken_cons (s := { s with text := afterName }) spelledPath
    have few : done.length + (rest.names.length + 1) ≤ 31 := pending.few
    have small := pending.small
    simp only [Entries.blocks] at small
    generalize counted : blockCeil (contentOf env path).length = count at small
    obtain ⟨u, added, text, extended, onDisk⟩ := addFile_adds (s := { s with text := afterPath })
      file (by
        rw [counted]
        simp only [add_mul] at small ⊢
        omega)
    rw [counted] at added extended
    have above : s.seek + count * BLOCKSIZE < u.seek := by
      have positive := blockSize_pos
      rw [extended.seek, succ_mul]
      simp only
      omega
    have next := Pending.next pending.listed pending.short few valid named
      (by rw [text]; exact spelledRest) ⟨extended.seek, extended.below⟩ above small
    obtain ⟨t, result, written⟩ := ih more rounds _ _ _ next (by
      simp only [Entries.tokens, length_cons] at enough
      omega)
    have seek : (addEntry env array done.length name (s.seek + count * BLOCKSIZE) u).2.seek =
        s.seek + (count + 1) * BLOCKSIZE := extended.seek
    have later := written.extended
    refine ⟨t, ?_, written.spelled, ?_, ⟨?_, ?_⟩, ?_⟩
    · rw [addDirectory, if_neg (by omega), tokenFile]
      simp only [show classify FILE = Token.file from rfl, tokenName, tokenPath, added]
      rw [length_append, length_singleton] at result
      rw [result, seek, Entries.blocks, counted, add_assoc s.seek, ← add_mul]
      rfl
    · have both := Extended.trans (s := s) ⟨extended.seek, extended.below⟩ ⟨later.seek, later.below⟩
      rw [← add_assoc] at both
      rw [Entries.blocks, counted]
      exact both
    · apply onDisk.keep
      intro address low high
      rw [counted] at high
      exact later.below address (by rw [seek]; exact high)
    · rw [counted, ← seek]
      exact written.holds
    · have directory := written.directory
      rw [seek, append_assoc] at directory
      simp only [Entries.blocks, Entries.listing, counted]
      rw [add_mul _ _ BLOCKSIZE, ← add_assoc]
      exact directory
  | dir name entries rest ihBelow ihRest =>
    intro more rounds array done s pending enough
    obtain ⟨rounds, rfl⟩ : ∃ r, rounds = r + 1 := ⟨rounds - 1, by omega⟩
    obtain ⟨named, listable, validBelow, valid⟩ := pending.valid
    obtain ⟨afterDir, tokenDir, spelledName⟩ := getToken_cons pending.spelled
    obtain ⟨afterName, tokenName, spelledBelow⟩ :=
      getToken_cons (s := { s with text := afterDir }) spelledName
    have few : done.length + (rest.names.length + 1) ≤ 31 := pending.few
    have small := pending.small
    simp only [Entries.blocks] at small
    simp only [Entries.tokens, length_cons, length_append] at enough
    have inner : Pending env entries (rest.tokens ++ END :: more) env.heap []
        { s with text := afterName } := by
      refine ⟨?_, validBelow, ?_, by simp, ?_, ?_⟩
      · have order : entries.tokens ++ END :: (rest.tokens ++ END :: more) =
            (entries.tokens ++ END :: rest.tokens) ++ END :: more := by
          rw [append_assoc, cons_append]
        rw [order]
        exact spelledBelow
      · rw [length_nil, zero_add]
        exact listable.few
      · intro k other place found
        simp at found
      · simp only [add_mul] at small ⊢
        omega
    obtain ⟨u, added, below⟩ := ihBelow _ rounds _ _ _ inner (by omega)
    have extended : Extended s u (entries.blocks env + 2) :=
      ⟨below.extended.seek, below.extended.below⟩
    have above : s.seek + (entries.blocks env + 1) * BLOCKSIZE < u.seek := by
      have positive := blockSize_pos
      rw [extended.seek, succ_mul (entries.blocks env + 1)]
      omega
    have next := Pending.next pending.listed pending.short few valid named below.spelled extended
      above small
    obtain ⟨t, result, written⟩ := ihRest more rounds _ _ _ next (by omega)
    have seek : (addEntry env array done.length name (s.seek + (entries.blocks env + 1) * BLOCKSIZE)
        u).2.seek = s.seek + (entries.blocks env + 2) * BLOCKSIZE := extended.seek
    have later := written.extended
    have kept : ∀ address < s.seek + (entries.blocks env + 2) * BLOCKSIZE,
        t.disk address = u.disk address := by
      intro address less
      exact later.below address (by rw [seek]; exact less)
    refine ⟨t, ?_, written.spelled, ?_, ⟨?_, ?_, ?_⟩, ?_⟩
    · rw [addDirectory, if_neg (by omega), tokenDir]
      rw [length_nil] at added
      simp only [show classify DIR = Token.dir from rfl, tokenName, added]
      rw [length_append, length_singleton] at result
      rw [result, seek, Entries.blocks, add_assoc s.seek, ← add_mul]
      rfl
    · have both := extended.trans (⟨later.seek, later.below⟩ : Extended u t _)
      rw [← add_assoc] at both
      exact both
    · apply below.holds.keep validBelow
      intro address low high
      apply kept
      calc address < s.seek + entries.blocks env * BLOCKSIZE := high
        _ ≤ s.seek + (entries.blocks env + 2) * BLOCKSIZE :=
          Nat.add_le_add_left (Nat.mul_le_mul_right _ (by omega)) _
    · apply below.directory.keep
      · rw [nil_append, Entries.listing_length]
        exact listable.few
      · exact Entries.listing_short validBelow s.seek
      · intro address low high
        apply kept
        rw [add_mul, ← add_assoc]
        exact high
    · rw [← seek]
      exact written.holds
    · have directory := written.directory
      rw [seek, append_assoc] at directory
      simp only [Entries.blocks, Entries.listing]
      rw [add_mul _ _ BLOCKSIZE, ← add_assoc]
      exact directory

end BoringOs.Newfs
