import BoringOs.O2fsReadDir

/-! `O2FS_Lookup` against `O2FS_ReadDir`. The search takes every slot of the blocks and compares the
magic as a string, with a terminator in the first byte of the hash; the listing stops at the size
and compares eight bytes. -/

namespace BoringOs.O2fs

open ByteMemory BufCache Newfs List Nat

variable {query : List UInt8} {memory contents : Memory} {b n address : Nat}

section

theorem bytes_of_sameBytes {bytes : List UInt8} (same : sameBytes memory address bytes = true) :
    ∀ index < bytes.length, memory (address + index) = bytesAt bytes index := by
  induction bytes generalizing address with
  | nil => simp
  | cons byte rest ih =>
    rw [sameBytes, Bool.and_eq_true, beq_iff_eq] at same
    intro index inside
    cases index with
    | zero => exact same.1
    | succ index =>
      rw [add_comm index, ← add_assoc, ih same.2 index (by simpa using inside)]
      rw [add_comm 1]
      rfl

theorem sameString_iff {name query : List UInt8}
    (stored : ∀ j ≤ name.length, memory (address + j) = bytesAt name j) (clean : 0 ∉ name)
    (plain : 0 ∉ query) : sameString memory address query = true ↔ query = name := by
  constructor
  · intro same
    have agree := bytes_of_sameBytes same
    rw [length_append, length_singleton, bytesAt_terminated] at agree
    apply bytesAt_injective plain clean
    intro index low high
    rw [← agree index (by omega), stored index high]
  · rintro rfl
    apply sameBytes_of_bytes
    intro index inside
    rw [length_append, length_singleton] at inside
    rw [bytesAt_terminated, stored index (by omega)]

variable {memory : Memory} {address count : Nat}

theorem stringAt_clean : 0 ∉ stringAt memory address count := by
  induction count generalizing address with
  | zero => exact not_mem_nil
  | succ count ih =>
    rw [stringAt]
    split
    case isTrue => exact not_mem_nil
    case isFalse inner =>
      rw [mem_cons, not_or]
      exact ⟨Ne.symm inner, ih⟩

theorem stringAt_bytes (terminated : ∃ len < count, memory (address + len) = 0) :
    (stringAt memory address count).length < count ∧
      ∀ j ≤ (stringAt memory address count).length,
        memory (address + j) = bytesAt (stringAt memory address count) j := by
  induction count generalizing address with
  | zero =>
    obtain ⟨len, less, _⟩ := terminated
    exact absurd less (Nat.not_lt_zero len)
  | succ count ih =>
    rw [stringAt]
    by_cases last : memory address = 0
    · rw [if_pos last]
      refine ⟨succ_pos count, fun j upTo => ?_⟩
      obtain rfl : j = 0 := le_zero.mp upTo
      exact last
    · rw [if_neg last]
      obtain ⟨len, less, zero⟩ := terminated
      have later : ∃ rest < count, memory (address + 1 + rest) = 0 := by
        cases len with
        | zero => exact absurd zero last
        | succ rest =>
          refine ⟨rest, by omega, ?_⟩
          rwa [add_assoc, add_comm 1]
      obtain ⟨short, bytes⟩ := ih later
      refine ⟨succ_lt_succ short, fun j upTo => ?_⟩
      cases j with
      | zero => rfl
      | succ j =>
        have here := bytes j (le_of_succ_le_succ upTo)
        rw [add_assoc, add_comm 1] at here
        exact here

end

/-! One slot, in the buffer of its block and in the bytes of the directory. -/

def entryProbe (contents : Memory) (n : Nat) (query : List UInt8) (k : Nat) : Option Nat :=
  if k < n ∧ entryName contents k = query then some (dirObjOffset contents (k * BDIRENTRY_SIZE))
  else none

section

variable {contents memory : Memory} {dir b e n : Nat} {query : List UInt8}

theorem slot_place (b e : Nat) :
    b * BLOCKSIZE + BDIRENTRY_SIZE * e = (32 * b + e) * BDIRENTRY_SIZE := by
  unfold BLOCKSIZE BDIRENTRY_SIZE
  omega

section

variable (same : MatchAt memory dir contents (b * BLOCKSIZE) BLOCKSIZE) (bound : e < 32)
include same bound

theorem slot_match :
    MatchAt memory (dir + BDIRENTRY_SIZE * e) contents ((32 * b + e) * BDIRENTRY_SIZE)
      BDIRENTRY_SIZE := by
  intro index inside
  have there := same (BDIRENTRY_SIZE * e + index) (by unfold BLOCKSIZE BDIRENTRY_SIZE at *; omega)
  rw [← add_assoc, ← add_assoc, slot_place] at there
  exact there

theorem slot_magic :
    sameString memory (dir + BDIRENTRY_SIZE * e) BDIR_MAGIC =
      sameString contents ((32 * b + e) * BDIRENTRY_SIZE) BDIR_MAGIC := by
  have agree := sameBytes_match (slot_match same bound) (BDIR_MAGIC ++ [0]) 0 (by decide)
  rwa [add_zero, add_zero] at agree

theorem slot_object :
    dirObjOffset memory (dir + BDIRENTRY_SIZE * e) =
      dirObjOffset contents ((32 * b + e) * BDIRENTRY_SIZE) :=
  loadLE_match (slot_match same bound) (by decide)

theorem slot_name (entry : DirEntryAt contents (32 * b + e)) (plain : 0 ∉ query) :
    sameString memory (dirName (dir + BDIRENTRY_SIZE * e)) query = true ↔
      entryName contents (32 * b + e) = query := by
  obtain ⟨short, bytes⟩ := stringAt_bytes entry.terminated
  refine (sameString_iff (fun j upTo => ?_) stringAt_clean plain).trans eq_comm
  have upper : j < NAME_MAX := lt_of_le_of_lt upTo short
  have there := slot_match same bound (256 + j) (by unfold NAME_MAX BDIRENTRY_SIZE at *; omega)
  rw [← bytes j upTo]
  exact (congrArg memory (add_assoc _ 256 j)).trans
    (there.trans (congrArg contents (add_assoc _ 256 j)).symm)

theorem slot_probe (entries : ∀ k < n, DirEntryAt contents k) (plain : 0 ∉ query)
    (seen : sameString contents ((32 * b + e) * BDIRENTRY_SIZE) BDIR_MAGIC = true ↔ 32 * b + e < n) :
    dirProbe memory dir query e = entryProbe contents n query (32 * b + e) := by
  rw [dirProbe, entryProbe]
  simp only [slot_magic same bound, slot_object same bound, Bool.and_eq_true, seen]
  by_cases inside : 32 * b + e < n
  · simp only [slot_name same bound (entries _ inside) plain]
  · simp only [inside, false_and]

end

end

section

variable {bufBase : Nat} {g : Geometry} {fs : VFS} {vn : VNode} {f : Nat} {s : BufState}

theorem fileByte_block (img : Memory) (f b : Nat) {i : Nat} (inside : i < BLOCKSIZE) :
    fileByte img f (b * BLOCKSIZE + i) = img (bnDirect img f b + i) := by
  have quotient : (b * BLOCKSIZE + i) / BLOCKSIZE = b := by
    unfold BLOCKSIZE at *
    omega
  have remainder : (b * BLOCKSIZE + i) % BLOCKSIZE = i := by
    unfold BLOCKSIZE at *
    omega
  rw [fileByte, quotient, remainder]

theorem Volume.directory_block (volume : Volume bufBase g fs s) (opened : Opened g fs s vn f)
    (bound : b < 64) (some_left : 0 < (unreferenced s).card) :
    ∃ e t, o2fsResolveBuf vn b s = (0, some e, t) ∧ Retained bufBase s t 1 ∧
      Retained bufBase s (bufCache_Release t e) 0 ∧
      MatchAt t.memory (bufferOf t e) (fileByte (image s g.disk) f) (b * BLOCKSIZE) BLOCKSIZE := by
  have aligned := volume.layout.pointer_aligned opened.member bound
  obtain ⟨e, t, result, takes, retained⟩ :=
    bufCache_Read_retains volume.coherent volume.reads g.disk aligned some_left
  refine ⟨e, t, ?_, retained, takes.released volume.coherent retained, fun i inside => ?_⟩
  · rw [o2fsResolveBuf, opened.direct volume.coherent.rep bound, opened.disk]
    exact result
  · have there := buffer_match retained.coherent.rep takes.held.1 aligned i inside
    rw [retained.images] at there
    exact there.trans (fileByte_block _ _ _ inside).symm

theorem entriesPerBlock : (toInt32 (BLOCKSIZE / BDIRENTRY_SIZE)).toNat = 32 := by
  decide

theorem lookupLoop_block (probe : Nat → Option Nat) (volume : Volume bufBase g fs s)
    (opened : Opened g fs s vn f) (bound : b < 64) (some_left : 0 < (unreferenced s).card)
    (probed : ∀ memory dir,
      MatchAt memory dir (fileByte (image s g.disk) f) (b * BLOCKSIZE) BLOCKSIZE →
      ∀ e < 32, dirProbe memory dir query e = probe (32 * b + e)) :
    ∃ t u, Retained bufBase s t 1 ∧ Retained bufBase s u 0 ∧ ∀ count,
      lookupLoop vn query (count + 1) b s =
        match Search.firstHit (fun e => probe (32 * b + e)) 32 with
        | some offset => some (0, some offset, t)
        | none => lookupLoop vn query count (b + 1) u := by
  obtain ⟨e, t, resolved, retained, released, same⟩ :=
    volume.directory_block opened bound some_left
  refine ⟨t, _, retained, released, fun count => ?_⟩
  have size : sbBlockSize s.memory (bufferOf s fs.fsptr) = BLOCKSIZE := by
    rw [volume.mounted.blockSize volume.coherent.rep, volume.blockSize]
  have searched : Search.firstHit (dirProbe t.memory (bufferOf t e) query) 32 =
      Search.firstHit (fun e => probe (32 * b + e)) 32 :=
    Search.firstHit_congr (probed _ _ same)
  rw [lookupLoop]
  cases hit : Search.firstHit (fun e => probe (32 * b + e)) 32 <;>
    simp only [resolved, size, entriesPerBlock, searched, hit, opened.vfs, ne_eq, not_true_eq_false,
      if_false]

theorem lookupLoop_searches {probe : Nat → Option Nat} {blocks : Nat} (few : blocks ≤ 64)
    (probed : ∀ b < blocks, ∀ memory dir, MatchAt memory dir contents (b * BLOCKSIZE) BLOCKSIZE →
      ∀ e < 32, dirProbe memory dir query e = probe (32 * b + e)) :
    ∀ count b s, Volume bufBase g fs s → Opened g fs s vn f →
      fileByte (image s g.disk) f = contents → 0 < (unreferenced s).card → b + count = blocks →
      (∀ k offset, 32 * b ≤ k → k < 32 * blocks → probe k = some offset →
        (∀ j, 32 * b ≤ j → j < k → probe j = none) →
        ∃ u, Retained bufBase s u 1 ∧ lookupLoop vn query count b s = some (0, some offset, u)) ∧
      ((∀ k, 32 * b ≤ k → k < 32 * blocks → probe k = none) →
        ∃ u, Retained bufBase s u 0 ∧ lookupLoop vn query count b s = some (-1, none, u)) := by
  intro count
  induction count with
  | zero =>
    intro b s volume _ _ _ whole
    refine ⟨fun k offset low high => by omega, fun _ => ⟨s, ?_, rfl⟩⟩
    exact .refl volume.coherent volume.reads
  | succ count ih =>
    intro b s volume opened same some_left whole
    obtain ⟨t, u, held, released, step⟩ := lookupLoop_block probe volume opened
      (show b < 64 by omega) some_left (fun memory dir there => by
        rw [same] at there
        exact probed b (by omega) memory dir there)
    have left := released.left
    obtain ⟨finds, misses⟩ := ih (b + 1) u (volume.of_retained released)
      (opened.keep released.kept) ((congrArg (fun img => fileByte img f) (released.images _)).trans same)
      (by omega) (by omega)
    rw [step count]
    constructor
    · intro k offset low high hit before
      by_cases here : k < 32 * (b + 1)
      · have first : Search.firstHit (fun e => probe (32 * b + e)) 32 = some offset := by
          refine Search.firstHit_first (show k - 32 * b < 32 by omega) ?_ (fun j less => ?_)
          · rwa [Nat.add_sub_cancel' low]
          · exact before _ (by omega) (by omega)
        rw [first]
        exact ⟨t, held, rfl⟩
      · have none : Search.firstHit (fun e => probe (32 * b + e)) 32 = none :=
          Search.firstHit_eq_none (fun e less => before _ (by omega) (by omega))
        rw [none]
        obtain ⟨v, kept, found⟩ :=
          finds k offset (by omega) high hit (fun j lower => before j (by omega))
        exact ⟨v, by simpa using released.trans kept, found⟩
    · intro empty
      have none : Search.firstHit (fun e => probe (32 * b + e)) 32 = none :=
        Search.firstHit_eq_none (fun e less => empty _ (by omega) (by omega))
      rw [none]
      obtain ⟨v, kept, missed⟩ := misses (fun k low => empty k (by omega))
      exact ⟨v, released.trans kept, missed⟩

def directoryBlocks (n : Nat) : Nat := blocksOf (n * BDIRENTRY_SIZE) BLOCKSIZE

theorem directoryBlocks_eq (most : n * BDIRENTRY_SIZE ≤ 64 * BLOCKSIZE) :
    directoryBlocks n = (n * BDIRENTRY_SIZE + (BLOCKSIZE - 1)) / BLOCKSIZE := by
  rw [directoryBlocks, blocksOf, add64_of_lt]
  unfold BLOCKSIZE word64 at *
  omega

theorem directoryBlocks_bounds (most : n * BDIRENTRY_SIZE ≤ 64 * BLOCKSIZE) :
    n ≤ 32 * directoryBlocks n ∧ directoryBlocks n ≤ 64 := by
  rw [directoryBlocks_eq most]
  unfold BLOCKSIZE BDIRENTRY_SIZE at *
  omega

/-- The search of `O2FS_Lookup` ends with the object of an entry, or with -1. -/
def LooksUp (vn : VNode) (query : List UInt8) (s : BufState) (target : Option Nat) : Prop :=
  ∃ u, lookupLoop vn query (blocksOf (bnSize s.memory (bufferOf s vn.fsptr))
    (sbBlockSize s.memory (bufferOf s vn.vfs.fsptr))) 0 s = some (if target.isSome then 0 else -1, target, u)

theorem LooksUp.unique {first second : Option Nat} (one : LooksUp vn query s first)
    (two : LooksUp vn query s second) : first = second := by
  obtain ⟨u, ran⟩ := one
  obtain ⟨v, again⟩ := two
  rw [ran] at again
  exact (Prod.mk.inj (Prod.mk.inj (Option.some.inj again)).2).1

theorem lookupLoop_directory (probe : Nat → Option Nat) (volume : Volume bufBase g fs s)
    (opened : Opened g fs s vn f) (some_left : 0 < (unreferenced s).card)
    (size : bnSize (image s g.disk) f = n * BDIRENTRY_SIZE)
    (probed : ∀ b < directoryBlocks n, ∀ memory dir,
      MatchAt memory dir (fileByte (image s g.disk) f) (b * BLOCKSIZE) BLOCKSIZE →
      ∀ e < 32, dirProbe memory dir query e = probe (32 * b + e)) :
    (∀ k offset, k < 32 * directoryBlocks n → probe k = some offset → (∀ j < k, probe j = none) →
      ∃ u, Retained bufBase s u 1 ∧
        lookupLoop vn query (directoryBlocks n) 0 s = some (0, some offset, u)) ∧
    ((∀ k < 32 * directoryBlocks n, probe k = none) →
      ∃ u, Retained bufBase s u 0 ∧ lookupLoop vn query (directoryBlocks n) 0 s = some (-1, none, u)) := by
  have most := (volume.sized f opened.member).1
  rw [size] at most
  obtain ⟨finds, misses⟩ := lookupLoop_searches (directoryBlocks_bounds most).2 probed
    (directoryBlocks n) 0 s volume opened rfl some_left (Nat.zero_add _)
  exact ⟨fun k offset high hit before => finds k offset (Nat.zero_le k) high hit (fun j _ => before j),
    fun empty => misses (fun k _ => empty k)⟩

theorem Volume.directory_blocks (volume : Volume bufBase g fs s) (opened : Opened g fs s vn f)
    (size : bnSize (image s g.disk) f = n * BDIRENTRY_SIZE) :
    blocksOf (bnSize s.memory (bufferOf s vn.fsptr)) (sbBlockSize s.memory (bufferOf s vn.vfs.fsptr)) =
      directoryBlocks n := by
  rw [volume.readsBlockSize opened.vfs, opened.size volume.coherent.rep, size]
  rfl

theorem o2fs_Lookup_searches (probe : Nat → Option Nat) (volume : Volume bufBase g fs s)
    (opened : Opened g fs s vn f) (some_left : 0 < (unreferenced s).card)
    (size : bnSize (image s g.disk) f = n * BDIRENTRY_SIZE)
    (probed : ∀ b < directoryBlocks n, ∀ memory dir,
      MatchAt memory dir (fileByte (image s g.disk) f) (b * BLOCKSIZE) BLOCKSIZE →
      ∀ e < 32, dirProbe memory dir query e = probe (32 * b + e)) :
    (∀ k offset, k < 32 * directoryBlocks n → probe k = some offset → (∀ j < k, probe j = none) →
      ∃ u, Retained bufBase s u 1 ∧ o2fs_Lookup vn query s =
        (o2fsLoadVNode fs offset u).map (fun (fn, t) => (0, fn, t))) ∧
    ((∀ k < 32 * directoryBlocks n, probe k = none) →
      ∃ u, Retained bufBase s u 0 ∧ o2fs_Lookup vn query s = some (-1, none, u)) := by
  have blocks := volume.directory_blocks opened size
  have nonzero : sbBlockSize s.memory (bufferOf s vn.vfs.fsptr) ≠ 0 := by
    rw [volume.readsBlockSize opened.vfs]
    decide
  obtain ⟨finds, misses⟩ := lookupLoop_directory probe volume opened some_left size probed
  simp only [o2fs_Lookup, if_neg nonzero, blocks]
  constructor
  · intro k offset high hit before
    obtain ⟨u, kept, found⟩ := finds k offset high hit before
    rw [found, opened.vfs]
    exact ⟨u, kept, rfl⟩
  · intro empty
    obtain ⟨u, kept, missed⟩ := misses empty
    rw [missed]
    exact ⟨u, kept, rfl⟩

end

end BoringOs.O2fs
