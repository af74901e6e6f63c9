import BoringOs.NewfsVolume
import BoringOs.O2fsBitmap

/-! Allocation on the volumes of `newfs_o2fs`: how far `O2FSBAlloc` goes. -/

namespace BoringOs.O2fs

open ByteMemory BufCache Nat

/-- The state after some calls of `O2FSBAlloc`. -/
def afterAllocs (fs : VFS) : Nat → BufState → BufState
  | 0, s => s
  | calls + 1, s => afterAllocs fs calls (o2fsBAlloc fs s).2

/-- What a call of `O2FSBAlloc` should do on a disk of `blockCount` blocks: take the lowest
block of the disk whose bit is clear, or return 0 when there is none. -/
def OnDisk (fs : VFS) (blockCount bits : Nat) (s : BufState) : Prop :=
  (∃ n < blockCount, bitAt fs s n = false ∧ (∀ m < n, bitAt fs s m = true) ∧
    (o2fsBAlloc fs s).1 = n ∧
    ∀ m < bits, bitAt fs (o2fsBAlloc fs s).2 m = (bitAt fs s m || decide (m = n))) ∨
  ((∀ n < blockCount, bitAt fs s n = true) ∧ (o2fsBAlloc fs s).1 = 0 ∧
    ∀ m < bits, bitAt fs (o2fsBAlloc fs s).2 m = bitAt fs s m)

section

variable {fs : VFS} {s : BufState} {count blockCount : Nat}

section

variable (bitmap : Bitmap fs s count)
include bitmap

theorem Bitmap.next : Bitmap fs (o2fsBAlloc fs s).2 count := by
  rcases bitmap.alloc with ⟨_, result⟩ | ⟨_, _, _, _, _, after, _⟩
  · rw [result]
    exact bitmap
  · exact after

theorem Bitmap.afterAllocs (calls : Nat) : Bitmap fs (afterAllocs fs calls s) count := by
  induction calls generalizing s with
  | zero => exact bitmap
  | succ calls ih => exact ih bitmap.next

theorem Bitmap.onDisk : OnDisk fs (covered fs count) (covered fs count) s := by
  rcases bitmap.alloc with ⟨full, result⟩ | ⟨n, bound, clear, lower, result, _, marked⟩
  · exact .inr ⟨full, by rw [result], fun _ _ => by rw [result]⟩
  · exact .inl ⟨n, bound, clear, lower, result, marked⟩

end

end

section

variable {fs : VFS} {count bufBase : Nat} {x : EntryId} {root : VNode} {s t : BufState} {disk : DiskId}

end

end BoringOs.O2fs

namespace BoringOs.Newfs

open ByteMemory BufCache O2fs

section

variable {env : Env} {megabytes : Nat} {fresh : Bool} {manifest : Option (List UInt8)}
  {before img : Memory} {bufBase : Nat} {s t : BufState} {disk : DiskId} {fs : VFS} {root : VNode}

section

variable (made : newfs env megabytes fresh manifest before = some img)
  (coherent : Coherent bufBase everyBlock s) (reads : ∀ n, s.readStatus n = 0)
  (inserted : image s disk = img)
  (left : bitmapSizeOf (diskSizeOf megabytes) + 1 ≤ (unreferenced s).card)
  (mounted : o2fs_Mount disk s = some (some (fs, root), t))
include made coherent reads inserted left mounted

/-- The disk ends where the bitmap ends, or there is no clear bit. -/
def Bounded (megabytes : Nat) (img : Memory) : Prop :=
  sbBlockCount img 0 % (8 * BLOCKSIZE) = 0 ∨
    ∀ n < 8 * (BLOCKSIZE * bitmapSizeOf (diskSizeOf megabytes)), blockBit img BLOCKSIZE n = true

end

end

def spell : List (List UInt8) → List UInt8
  | [] => []
  | token :: tokens => [32] ++ (token ++ spell tokens)

theorem spell_spelled (tokens : List (List UInt8)) (valid : ∀ token ∈ tokens, IsToken token) :
    Spelled tokens (spell tokens) := by
  induction tokens with
  | nil => exact .nil [] (by simp)
  | cons token tokens ih =>
    refine .cons [32] token (spell tokens) tokens (by simp [isBlank])
      (valid token List.mem_cons_self) ?_
      (ih (fun other member => valid other (List.mem_cons_of_mem _ member)))
    cases tokens <;> simp [spell, isBlank]

def threeFiles : Entries := .file [97] [97] (.file [98] [98] (.file [99] [99] .nil))

def threeBytes : Env := ⟨fun _ => some [7], fun _ => 0, fun _ => 0⟩

def threeFilesText : List UInt8 := spell (manifestTokens threeFiles)

theorem threeFiles_valid : threeFiles.Valid threeBytes := by
  have file : ∀ path, ValidFile threeBytes path := by
    intro path
    exact ⟨rfl, by simp [contentOf, threeBytes, BLOCKSIZE]⟩
  have name : ∀ c : UInt8, c ≠ SLASH → ValidName [c] := by
    intro c other
    exact ⟨le_rfl, by simp [MAXNAMELEN], by simpa using other.symm⟩
  exact ⟨name 97 (by decide), file _, name 98 (by decide), file _, name 99 (by decide), file _, trivial⟩

theorem threeFiles_makeable : Makeable threeBytes 1 threeFiles threeFilesText := by
  have blocks : threeFiles.blocks threeBytes = 6 := by decide
  refine ⟨spell_spelled _ ?_, ⟨by decide, by decide⟩, threeFiles_valid, ?_, ?_, ?_⟩
  · intro token member
    have tokens : ∀ token ∈ manifestTokens threeFiles, token ≠ [] ∧
        (∀ c ∈ token, isTokenChar c = true) ∧ token.length < 512 := by decide +kernel
    obtain ⟨nonempty, chars, short⟩ := tokens token member
    exact ⟨nonempty, chars, short⟩
  · rw [blocks]
    decide
  · rw [blocks]
    decide
  · rw [blocks]
    decide

end BoringOs.Newfs
