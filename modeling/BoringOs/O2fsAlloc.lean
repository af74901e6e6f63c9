import BoringOs.O2fsLayout

/-! Block allocation and the loop of `O2FSGrowVNode`: what one allocation does, and the
rule that carries it to the whole loop. -/

namespace BoringOs.O2fs

open ByteMemory BufCache Search Nat

variable {n i f bytes bitmap blksize b bi offset : Nat} {e : EntryId} {g : Geometry} {trusted : DiskId → Nat → Prop} {fs : VFS} {s : BufState} {memory img : Memory}

/-- The references a mounted file system holds for its whole life. -/
structure Mounted (g : Geometry) (fs : VFS) (s : BufState) : Prop where
  disk : fs.disk = g.disk
  blksize : fs.blksize = BLOCKSIZE
  superblock : Held s fs.fsptr g.disk 0
  bitmap : ∀ i < g.bitmapBlocks, ∃ e, fs.bitmap i = some e ∧
    Held s e g.disk (g.bitmapOffset + i * BLOCKSIZE)
  bitmapEnd : ∀ i, g.bitmapBlocks ≤ i → fs.bitmap i = none

theorem Mounted.keep {s t : BufState} (mounted : Mounted g fs s)
    (kept : ∀ e disk offset, Held s e disk offset → Held t e disk offset) : Mounted g fs t where
  disk := mounted.disk
  blksize := mounted.blksize
  superblock := kept _ _ _ mounted.superblock
  bitmap i bound := by
    obtain ⟨e, entry, held⟩ := mounted.bitmap i bound
    exact ⟨e, entry, kept _ _ _ held⟩
  bitmapEnd := mounted.bitmapEnd

theorem clearBitIn_some (found : clearBitIn memory bitmap blksize = some (b, bi)) :
    b < blksize ∧ bi < 8 ∧ bitClear memory bitmap b bi = true ∧
    ∀ b' bi', bi' < 8 → (b' < b ∨ b' = b ∧ bi' < bi) → bitClear memory bitmap b' bi' = false := by
  obtain ⟨byte, byteBound, inByte, bytesBefore⟩ := firstHit_some found
  obtain ⟨bit, bitBound, here, bitsBefore⟩ := firstHit_some inByte
  split at here
  · rename_i clear
    simp only [Option.some.injEq, Prod.mk.injEq] at here
    obtain ⟨rfl, rfl⟩ := here
    refine ⟨byteBound, bitBound, clear, ?_⟩
    rintro b' bi' inside (earlier | ⟨rfl, earlier⟩)
    · have full := firstHit_none (bytesBefore b' earlier) bi' inside
      simpa using full
    · simpa using bitsBefore bi' earlier
  · simp at here

theorem clearBitIn_none (missed : clearBitIn memory bitmap blksize = none) :
    ∀ b < blksize, ∀ bi < 8, bitClear memory bitmap b bi = false := by
  intro b byteBound bi bitBound
  have full := firstHit_none (firstHit_none missed b byteBound) bi bitBound
  simpa using full

/-- The bit of block `n`: bit `n % 8` of byte `n / 8`, counted over all the buffers. -/
def bitAt (fs : VFS) (s : BufState) (n : Nat) : Bool :=
  match fs.bitmap (n / 8 / fs.blksize) with
  | none => false
  | some e => !bitClear s.memory (bufferOf s e) (n / 8 % fs.blksize) (n % 8)

/-- The blocks that the bitmap covers. -/
def covered (fs : VFS) (count : Nat) : Nat := 8 * (fs.blksize * count)

section

variable {blksize i b bi : Nat}

theorem place_of_number (byte : b < blksize) (bit : bi < 8) :
    (8 * (blksize * i + b) + bi) / 8 / blksize = i ∧
    (8 * (blksize * i + b) + bi) / 8 % blksize = b ∧ (8 * (blksize * i + b) + bi) % 8 = bi := by
  have quotient : (8 * (blksize * i + b) + bi) / 8 = blksize * i + b := by omega
  refine ⟨?_, ?_, by omega⟩
  · rw [quotient, mul_add_div (by omega), div_eq_of_lt byte, add_zero]
  · rw [quotient, mul_add_mod, mod_eq_of_lt byte]

theorem number_of_place (blksize n : Nat) :
    8 * (blksize * (n / 8 / blksize) + n / 8 % blksize) + n % 8 = n := by
  rw [div_add_mod]
  omega

theorem place_of_less {m : Nat} (byte : b < blksize)
    (less : m < 8 * (blksize * i + b) + bi) (bit : bi < 8) :
    m / 8 / blksize < i ∨ m / 8 / blksize = i ∧
      (m / 8 % blksize < b ∨ m / 8 % blksize = b ∧ m % 8 < bi) := by
  have number := number_of_place blksize m
  rcases lt_trichotomy (m / 8 / blksize) i with before | same | after
  · exact .inl before
  · right
    refine ⟨same, ?_⟩
    rw [same] at number
    omega
  · have further := Nat.mul_le_mul_left blksize (succ_le_of_lt after)
    rw [mul_succ] at further
    omega

end

section

variable {fs : VFS} {s : BufState} {count : Nat}

theorem entry_of_covered {n : Nat} (bound : n < covered fs count) : n / 8 / fs.blksize < count := by
  unfold covered at bound
  apply Nat.div_lt_of_lt_mul
  omega

theorem full_of_none {i : Nat} (positive : 0 < fs.blksize) (entry : ∃ e, fs.bitmap i = some e)
    (onward : bitmapProbe fs s i = none) {n : Nat} (here : n / 8 / fs.blksize = i) :
    bitAt fs s n = true := by
  obtain ⟨e, entry⟩ := entry
  simp only [bitmapProbe, entry, Option.map_eq_none_iff] at onward
  have set := clearBitIn_none onward (n / 8 % fs.blksize) (mod_lt _ positive) (n % 8)
    (mod_lt _ (by omega))
  simp only [bitAt, here, entry, set, Bool.not_false]

theorem o2fsBAlloc_search (most : count ≤ 16) (positive : 0 < fs.blksize) (small : fs.blksize < 2 ^ 31)
    (entries : ∀ i < count, ∃ e, fs.bitmap i = some e) (finish : ∀ i, count ≤ i → fs.bitmap i = none) :
    ((∀ n < covered fs count, bitAt fs s n = true) ∧ o2fsBAlloc fs s = (0, s)) ∨
    ∃ n e, n < covered fs count ∧ bitAt fs s n = false ∧ (∀ m < n, bitAt fs s m = true) ∧
      fs.bitmap (n / 8 / fs.blksize) = some e ∧
      o2fsBAlloc fs s = (n, (bufCache_Write (withMemory s
        (setBit s.memory (bufferOf s e) (n / 8 % fs.blksize) (n % 8))) e).2) := by
  have full : ∀ i < count, bitmapProbe fs s i = none → ∀ {n}, n / 8 / fs.blksize = i →
      bitAt fs s n = true :=
    fun i bound onward => full_of_none positive (entries i bound) onward
  cases searched : firstHit (bitmapProbe fs s) 16 with
  | none =>
    left
    refine ⟨?_, by simp only [o2fsBAlloc, searched]⟩
    intro n bound
    have inside := entry_of_covered bound
    exact full _ inside (firstHit_none searched _ (lt_of_lt_of_le inside most)) rfl
  | some outcome =>
    obtain ⟨i, _, probed, before⟩ := firstHit_some searched
    cases outcome with
    | none =>
      left
      refine ⟨?_, by simp only [o2fsBAlloc, searched]⟩
      have ended : count ≤ i := by
        by_contra inside
        obtain ⟨e, entry⟩ := entries i (by omega)
        simp [bitmapProbe, entry] at probed
      intro n bound
      have inside := entry_of_covered bound
      exact full _ inside (before _ (lt_of_lt_of_le inside ended)) rfl
    | some place =>
      right
      have bound : i < count := by
        by_contra ended
        simp [bitmapProbe, finish i (by omega)] at probed
      obtain ⟨e, entry⟩ := entries i bound
      simp only [bitmapProbe, entry, Option.map_eq_some_iff] at probed
      obtain ⟨⟨b, bi⟩, found, stopped⟩ := probed
      obtain rfl := Option.some.inj stopped
      obtain ⟨byte, bit, clear, earlier⟩ := clearBitIn_some found
      obtain ⟨buffer, byteIndex, bitIndex⟩ := place_of_number (i := i) byte bit
      have area : fs.blksize * i + fs.blksize ≤ fs.blksize * count := by
        rw [← mul_succ]
        exact Nat.mul_le_mul_left _ bound
      have limit : fs.blksize * count ≤ fs.blksize * 16 := Nat.mul_le_mul_left _ most
      have number : add64 (mul64 (mul64 fs.blksize 8) i) (8 * b + bi) =
          8 * (fs.blksize * i + b) + bi := by
        have product : fs.blksize * 8 * i = 8 * (fs.blksize * i) := by
          rw [mul_comm fs.blksize 8, mul_assoc]
        rw [mul64_of_lt (show fs.blksize * 8 < word64 by unfold word64; omega),
          mul64_of_lt (by unfold word64; omega), product,
          add64_of_lt (by unfold word64; omega)]
        omega
      refine ⟨8 * (fs.blksize * i + b) + bi, e, ?_, ?_, ?_, by rw [buffer, entry], ?_⟩
      · unfold covered
        omega
      · simp only [bitAt, buffer, entry, byteIndex, bitIndex, clear, Bool.not_true]
      · intro m less
        rcases place_of_less byte less bit with lower | ⟨same, inBuffer⟩
        · exact full _ (lt_trans lower bound) (before _ lower) rfl
        · have set := earlier (m / 8 % fs.blksize) (m % 8) (mod_lt _ (by omega)) inBuffer
          simp only [bitAt, same, entry, set, Bool.not_false]
      · rw [byteIndex, bitIndex]
        simp only [o2fsBAlloc, searched, number]
        rfl

end

section

variable {bufBase : Nat} {g : Geometry} {fs : VFS} {s : BufState}

theorem bitClear_image (inv : RepInv bufBase s)
    (held : Held s e g.disk (g.bitmapOffset + i * BLOCKSIZE)) (inside : b < BLOCKSIZE)
    (bit : bi < 8) :
    bitClear s.memory (bufferOf s e) b bi =
      !blockBit (image s g.disk) g.bitmapOffset (8 * BLOCKSIZE * i + 8 * b + bi) := by
  have aligned : (g.bitmapOffset + i * BLOCKSIZE) % BLOCKSIZE = 0 := by
    rw [add_mul_mod_self_right]
    exact g.bitmapAligned
  have place : g.bitmapOffset + (8 * BLOCKSIZE * i + 8 * b + bi) / 8 =
      g.bitmapOffset + i * BLOCKSIZE + b := by
    unfold BLOCKSIZE at *
    omega
  have index : (8 * BLOCKSIZE * i + 8 * b + bi) % 8 = bi := by
    unfold BLOCKSIZE
    omega
  rw [bitClear, blockBit, place, index, image_key inv held.1 aligned inside]
  rfl

theorem o2fsBAlloc_cases (inv : RepInv bufBase s) (mounted : Mounted g fs s) :
    ((∀ n < g.capacity, blockBit (image s g.disk) g.bitmapOffset n = true) ∧
      o2fsBAlloc fs s = (0, s)) ∨
    ∃ n e, n < g.capacity ∧ blockBit (image s g.disk) g.bitmapOffset n = false ∧
      (∀ m < n, blockBit (image s g.disk) g.bitmapOffset m = true) ∧
      Held s e g.disk (g.bitmapOffset + n / (8 * BLOCKSIZE) * BLOCKSIZE) ∧
      o2fsBAlloc fs s = (n, (bufCache_Write (withMemory s
        (setBit s.memory (bufferOf s e) (n / 8 % BLOCKSIZE) (n % 8))) e).2) := by
  have blksize := mounted.blksize
  have area : covered fs g.bitmapBlocks = g.capacity := by
    unfold covered Geometry.capacity
    rw [blksize, mul_assoc]
  have bits : ∀ n < g.capacity, bitAt fs s n = blockBit (image s g.disk) g.bitmapOffset n := by
    intro n bound
    obtain ⟨e, entry, held⟩ := mounted.bitmap _ (g.bit_place bound).1
    have number : 8 * BLOCKSIZE * (n / (8 * BLOCKSIZE)) + 8 * (n / 8 % BLOCKSIZE) + n % 8 = n := by
      unfold BLOCKSIZE
      omega
    rw [bitAt, blksize, Nat.div_div_eq_div_mul, entry]
    dsimp only
    rw [bitClear_image inv held (blockIndex_lt _) (mod_lt _ (by omega)), number, Bool.not_not]
  rcases o2fsBAlloc_search g.bitmapBound (by rw [blksize]; decide) (by rw [blksize]; decide)
    (fun i inside => (mounted.bitmap i inside).imp (fun _ both => both.1)) mounted.bitmapEnd with
    ⟨full, result⟩ | ⟨n, e, bound, clear, lower, entry, result⟩
  · rw [area] at full
    exact .inl ⟨fun n bound => (bits n bound).symm.trans (full n bound), result⟩
  · rw [area] at bound
    refine .inr ⟨n, e, bound, (bits n bound).symm.trans clear, ?_, ?_, ?_⟩
    · exact fun m less => (bits m (lt_trans less bound)).symm.trans (lower m less)
    · obtain ⟨x, same, held⟩ := mounted.bitmap _ (g.bit_place bound).1
      rw [blksize, Nat.div_div_eq_div_mul, same] at entry
      cases entry
      exact held
    · rw [result, blksize]

def allocated (s : BufState) (e : EntryId) (g : Geometry) (n : Nat) : BufState :=
  writtenBack (withMemory s (setBit s.memory (bufferOf s e) (n / 8 % BLOCKSIZE) (n % 8))) e g.disk
    (g.bitmapOffset + n / (8 * BLOCKSIZE) * BLOCKSIZE)

theorem bufCache_Write_allocated (ok : s.writeStatus 0 = 0)
    (held : Held s e g.disk (g.bitmapOffset + n / (8 * BLOCKSIZE) * BLOCKSIZE)) :
    (bufCache_Write (withMemory s
      (setBit s.memory (bufferOf s e) (n / 8 % BLOCKSIZE) (n % 8))) e).2 = allocated s e g n := by
  have key : HasKey (withMemory s (setBit s.memory (bufferOf s e) (n / 8 % BLOCKSIZE) (n % 8)))
      e g.disk (g.bitmapOffset + n / (8 * BLOCKSIZE) * BLOCKSIZE) := held.1
  rw [bufCache_Write_eq key ok]
  rfl

theorem marked_image (coherent : Coherent bufBase trusted s) (bound : n < g.capacity)
    (held : Held s e g.disk (g.bitmapOffset + n / (8 * BLOCKSIZE) * BLOCKSIZE)) :
    let marked := withMemory s (setBit s.memory (bufferOf s e) (n / 8 % BLOCKSIZE) (n % 8))
    Coherent bufBase trusted marked ∧
    image marked g.disk = setBit (image s g.disk) g.bitmapOffset (n / 8) (n % 8) ∧
    ∀ d, d ≠ g.disk → image marked d = image s d := by
  obtain ⟨_, index, place⟩ := g.bit_place bound
  have aligned := coherent.aligned e _ _ held.1
  have byte := image_key coherent.rep held.1 aligned index
  rw [setBit, setBit, place, byte]
  exact update_image coherent held index _

theorem allocated_image (coherent : Coherent bufBase trusted s) (bound : n < g.capacity)
    (held : Held s e g.disk (g.bitmapOffset + n / (8 * BLOCKSIZE) * BLOCKSIZE)) :
    Coherent bufBase trusted (allocated s e g n) ∧
    image (allocated s e g n) g.disk =
      setBit (image s g.disk) g.bitmapOffset (n / 8) (n % 8) ∧
    ∀ d, d ≠ g.disk → image (allocated s e g n) d = image s d := by
  obtain ⟨marked, own, others⟩ := marked_image coherent bound held
  have key : HasKey (withMemory s (setBit s.memory (bufferOf s e) (n / 8 % BLOCKSIZE) (n % 8)))
      e g.disk (g.bitmapOffset + n / (8 * BLOCKSIZE) * BLOCKSIZE) := held.1
  obtain ⟨after, same⟩ := writtenBack_image marked key
  exact ⟨after, (same g.disk).trans own, fun d other => (same d).trans (others d other)⟩

theorem o2fsBAlloc_layout (inv : RepInv bufBase s) (mounted : Mounted g fs s)
    (layout : Layout g (image s g.disk)) (ok : s.writeStatus 0 = 0) :
    ((∀ n < g.capacity, blockBit (image s g.disk) g.bitmapOffset n = true) ∧
      o2fsBAlloc fs s = (0, s)) ∨
    ∃ n e, n < g.capacity ∧ n ≠ 0 ∧ blockBit (image s g.disk) g.bitmapOffset n = false ∧
      (∀ m < n, blockBit (image s g.disk) g.bitmapOffset m = true) ∧
      Held s e g.disk (g.bitmapOffset + n / (8 * BLOCKSIZE) * BLOCKSIZE) ∧
      o2fsBAlloc fs s = (n, allocated s e g n) := by
  rcases o2fsBAlloc_cases inv mounted with full | ⟨n, e, bound, clear, lower, held, result⟩
  · exact .inl full
  · right
    refine ⟨n, e, bound, ?_, clear, lower, held, ?_⟩
    · -- the bit of the superblock is set
      rintro rfl
      have zero : (0 : Nat) ∈ used g (image s g.disk) := layout.reservedUsed .superblock
      have set := zero.2.2
      rw [Nat.zero_div, clear] at set
      exact absurd set (by decide)
    · rw [result, bufCache_Write_allocated ok held]

/-- The state after block `n` has been allocated and entered in `direct[i]`. -/
def claimed (s : BufState) (e : EntryId) (g : Geometry) (n bn i : Nat) : BufState :=
  withMemory (allocated s e g n)
    (storeLE (allocated s e g n).memory (directAt bn i) 8 (n * BLOCKSIZE))

theorem claimed_image (coherent : Coherent bufBase trusted s) {e x : EntryId} (bound : n < g.capacity)
    (held : Held s e g.disk (g.bitmapOffset + n / (8 * BLOCKSIZE) * BLOCKSIZE))
    (node : Held s x g.disk f) (slot : i < 64) :
    Coherent bufBase trusted (claimed s e g n (bufferOf s x) i) ∧
    image (claimed s e g n (bufferOf s x) i) g.disk =
      storeLE (setBit (image s g.disk) g.bitmapOffset (n / 8) (n % 8)) (directAt f i) 8
        (n * BLOCKSIZE) ∧
    ∀ d, d ≠ g.disk → image (claimed s e g n (bufferOf s x) i) d = image s d := by
  obtain ⟨marked, own, others⟩ := allocated_image coherent bound held
  have nodeAfter : Held (allocated s e g n) x g.disk f := node
  have inside : 64 + 64 * i + 8 ≤ BLOCKSIZE := by
    unfold BLOCKSIZE
    omega
  obtain ⟨after, entered, elsewhere⟩ := store_image marked nodeAfter inside (n * BLOCKSIZE)
  have place : directAt (bufferOf s x) i = ((allocated s e g n).entry x).buffer + (64 + 64 * i) :=
    add_assoc _ _ _
  have target : directAt f i = f + (64 + 64 * i) := add_assoc _ _ _
  rw [claimed, place, target]
  refine ⟨after, ?_, ?_⟩
  · rw [← own]
    exact entered
  · intro d other
    exact (elsewhere d other).trans (others d other)

end

/-- `ceil (bytes / BLOCKSIZE)`. -/
def blockCeil (bytes : Nat) : Nat := (bytes + (BLOCKSIZE - 1)) / BLOCKSIZE

theorem blocksOf_eq (bound : bytes ≤ 64 * BLOCKSIZE) :
    blocksOf bytes BLOCKSIZE = blockCeil bytes := by
  have small : bytes + (BLOCKSIZE - 1) < word64 := by
    unfold BLOCKSIZE at *
    unfold word64
    omega
  rw [blocksOf, add64_of_lt small, blockCeil]

theorem blockCeil_le (bound : bytes ≤ 64 * BLOCKSIZE) : blockCeil bytes ≤ 64 := by
  unfold blockCeil
  unfold BLOCKSIZE at *
  omega

theorem le_blockCeil (bytes : Nat) : bytes ≤ blockCeil bytes * BLOCKSIZE := by
  unfold blockCeil BLOCKSIZE
  omega

theorem lt_blockCeil : i < blockCeil bytes ↔ i * BLOCKSIZE < bytes := by
  unfold blockCeil BLOCKSIZE
  omega

theorem o2fsGrowVNode_eq {vn : VNode} (vfs : vn.vfs = fs)
    (blksize : fs.blksize = BLOCKSIZE) {size filesz : Nat}
    (current : bnSize s.memory (bufferOf s vn.fsptr) = size) (sizeBound : size ≤ 64 * BLOCKSIZE)
    (bound : filesz ≤ 64 * BLOCKSIZE) :
    o2fsGrowVNode vn filesz s =
      let ran := growLoop fs (bufferOf s vn.fsptr) (blockCeil filesz - blockCeil size)
        (blockCeil size) s
      if ran.1 ≠ 0 then some ran
      else some (0, (bufCache_Write (withMemory ran.2
        (storeLE ran.2.memory (bufferOf s vn.fsptr + 16) 8 filesz)) vn.fsptr).2) := by
  have limit : mul64 BLOCKSIZE O2FS_DIRECT_PTR = 64 * BLOCKSIZE := by decide
  have few := blockCeil_le sizeBound
  have first : toInt32 (blockCeil size) = (blockCeil size : Nat) := toInt32_of_lt (by omega)
  have forward : ¬ ((blockCeil size : Nat) : Int) < 0 := by omega
  unfold o2fsGrowVNode
  simp only [vfs, blksize, current, blocksOf_eq sizeBound, blocksOf_eq bound, first, limit,
    Int.toNat_natCast, forward, ↓reduceIte]
  rw [if_neg (by decide), if_neg (by omega)]
  rfl

/-- The loop rule of `O2FSGrowVNode`: `inv i` holds when round `i` starts. -/
theorem growLoop_rule (fs : VFS) (bn stop : Nat) (inv : Nat → BufState → Prop)
    (failed : BufState → Prop)
    (skip : ∀ i s, inv i s → i < stop → bnDirect s.memory bn i ≠ 0 → inv (i + 1) s)
    (full : ∀ i s, inv i s → i < stop → bnDirect s.memory bn i = 0 → (o2fsBAlloc fs s).1 = 0 →
      failed (o2fsBAlloc fs s).2)
    (take : ∀ i s, inv i s → i < stop → bnDirect s.memory bn i = 0 → (o2fsBAlloc fs s).1 ≠ 0 →
      inv (i + 1) (withMemory (o2fsBAlloc fs s).2 (storeLE (o2fsBAlloc fs s).2.memory
        (directAt bn i) 8 (mul64 (o2fsBAlloc fs s).1 fs.blksize)))) :
    ∀ count i s, inv i s → i + count = stop →
      ((growLoop fs bn count i s).1 = 0 ∧ inv stop (growLoop fs bn count i s).2) ∨
      ((growLoop fs bn count i s).1 = -ENOSPC ∧ failed (growLoop fs bn count i s).2) := by
  intro count
  induction count with
  | zero =>
    intro i s holds last
    left
    rw [← last]
    exact ⟨rfl, holds⟩
  | succ count ih =>
    intro i s holds last
    by_cases present : bnDirect s.memory bn i ≠ 0
    · rw [growLoop, if_pos present]
      exact ih (i + 1) s (skip i s holds (by omega) present) (by omega)
    · rw [growLoop, if_neg present]
      have absent : bnDirect s.memory bn i = 0 := not_not.mp present
      by_cases none : (o2fsBAlloc fs s).1 = 0
      · right
        simp only [none, ↓reduceIte, true_and]
        exact full i s holds (by omega) absent none
      · simp only [none, ↓reduceIte]
        exact ih (i + 1) _ (take i s holds (by omega) absent none) (by omega)

/-- What growing file `f` may do to an image: it keeps the layout and the pointers that
are there, and it changes no other file, no data and not the superblock. -/
structure Grown (g : Geometry) (f : Nat) (before after : Memory) : Prop where
  layout : Layout g after
  files : ∀ h ∈ g.files, h ≠ f → AgreeAt after before h
  size : bnSize after f = bnSize before f
  pointers : ∀ i < 64, bnDirect before f i ≠ 0 → bnDirect after f i = bnDirect before f i
  data : ∀ offset, offset % BLOCKSIZE = 0 → ¬ g.Reserved offset → AgreeAt after before offset
  superblock : AgreeAt after before 0

theorem Grown.refl (layout : Layout g img) (f : Nat) :
    Grown g f img img where
  layout := layout
  files _ _ _ _ _ := rfl
  size := rfl
  pointers _ _ _ := rfl
  data _ _ _ _ _ := rfl
  superblock _ _ := rfl

theorem AgreeAt.trans {first second third : Memory}
    (left : AgreeAt first second offset) (right : AgreeAt second third offset) :
    AgreeAt first third offset :=
  fun index inside => (left index inside).trans (right index inside)

theorem agreeAt_claim (g : Geometry) (img : Memory) (bound : n < g.capacity)
    (member : f ∈ g.files) (slot : i < 64) (value : Nat) (aligned : offset % BLOCKSIZE = 0)
    (other : offset ≠ f) (different : ∀ j < g.bitmapBlocks, offset ≠ g.bitmapOffset + j * BLOCKSIZE) :
    AgreeAt (storeLE (setBit img g.bitmapOffset (n / 8) (n % 8)) (directAt f i) 8 value) img
      offset :=
  (agreeAt_direct g _ member slot value aligned other).trans
    (agreeAt_setBit g img bound aligned different)

theorem Grown.claim {before img : Memory} (grown : Grown g f before img)
    (member : f ∈ g.files) (bound : n < g.capacity) (positive : n ≠ 0)
    (clear : blockBit img g.bitmapOffset n = false) (slot : i < 64) (absent : bnDirect img f i = 0) :
    Grown g f before (storeLE (setBit img g.bitmapOffset (n / 8) (n % 8)) (directAt f i) 8
      (n * BLOCKSIZE)) := by
  have ownBlock : AgreeAt (setBit img g.bitmapOffset (n / 8) (n % 8)) img f :=
    agreeAt_setBit g img bound (g.fileAligned f member) (g.fileApart f member)
  constructor
  · exact grown.layout.claim bound clear member slot positive
  · intro h inside other
    exact (agreeAt_claim g img bound member slot _ (g.fileAligned h inside) other
      (g.fileApart h inside)).trans (grown.files h inside other)
  · rw [bnSize_store_direct, bnSize_agree ownBlock]
    exact grown.size
  · intro j inside present
    have kept := grown.pointers j inside present
    have other : j ≠ i := by
      rintro rfl
      exact present (kept.symm.trans absent)
    rw [bnDirect_store _ f (g.offset_lt bound), if_neg other, bnDirect_agree ownBlock inside]
    exact kept
  · intro offset aligned free
    refine (agreeAt_claim g img bound member slot _ aligned ?_ ?_).trans
      (grown.data offset aligned free)
    · rintro rfl
      exact free (.file _ member)
    · rintro j inside rfl
      exact free (.bitmap j inside)
  · refine (agreeAt_claim g img bound member slot _ rfl ?_ ?_).trans grown.superblock
    · have positive := g.filePositive f member
      omega
    · intro j _
      have positive := g.bitmapPositive
      omega

end BoringOs.O2fs
