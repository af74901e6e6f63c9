import BoringOs.BufCacheImage
import BoringOs.Lib.Ownership
import BoringOs.O2fs

/-! The layout of an O2FS volume as ownership of its blocks by the direct pointers. The superblock,
the bitmap and the block nodes are reserved, and the bitmap is the record of the blocks in use. -/

namespace BoringOs.O2fs

open ByteMemory BufCache Ownership Function Nat

/-- Where the metadata of a volume lies; `files` are the offsets of its block nodes. -/
structure Geometry where
  disk : DiskId
  bitmapOffset : Nat
  bitmapBlocks : Nat
  files : Set Nat
  bitmapAligned : bitmapOffset % BLOCKSIZE = 0
  bitmapPositive : 0 < bitmapOffset
  bitmapBound : bitmapBlocks ≤ 16
  fileAligned : ∀ f ∈ files, f % BLOCKSIZE = 0
  filePositive : ∀ f ∈ files, 0 < f
  fileApart : ∀ f ∈ files, ∀ i < bitmapBlocks, f ≠ bitmapOffset + i * BLOCKSIZE

def Geometry.capacity (g : Geometry) : Nat := 8 * BLOCKSIZE * g.bitmapBlocks

inductive Geometry.Reserved (g : Geometry) : Nat → Prop where
  | superblock : Reserved g 0
  | bitmap (i : Nat) (bound : i < g.bitmapBlocks) : Reserved g (g.bitmapOffset + i * BLOCKSIZE)
  | file (f : Nat) (member : f ∈ g.files) : Reserved g f

abbrev Geometry.Slot (g : Geometry) := {f : Nat // f ∈ g.files} × Fin 64

def blockBit (img : Memory) (bitmapOffset n : Nat) : Bool :=
  (img (bitmapOffset + n / 8)).toNat.testBit (n % 8)

def slots (g : Geometry) (img : Memory) : g.Slot → Option Nat := fun (f, i) =>
  if bnDirect img f.1 i = 0 then none else some (bnDirect img f.1 i)

def reserved (g : Geometry) : Set Nat := {offset | g.Reserved offset}

def used (g : Geometry) (img : Memory) : Set Nat :=
  {offset | offset % BLOCKSIZE = 0 ∧ offset / BLOCKSIZE < g.capacity ∧
    blockBit img g.bitmapOffset (offset / BLOCKSIZE) = true}

def Layout (g : Geometry) (img : Memory) : Prop := Owned (slots g img) (reserved g) (used g img)

variable {f i n offset value block dest width j : Nat} {g : Geometry} {left right img : Memory}

def AgreeAt (left right : Memory) (offset : Nat) : Prop :=
  ∀ index < BLOCKSIZE, left (offset + index) = right (offset + index)

theorem Geometry.reserved_aligned (g : Geometry) (member : g.Reserved offset) :
    offset % BLOCKSIZE = 0 := by
  cases member with
  | superblock => rfl
  | bitmap i bound =>
    have aligned := g.bitmapAligned
    unfold BLOCKSIZE at *
    omega
  | file _ inside => exact g.fileAligned _ inside

theorem agreeAt_copyBytes (img source : Memory) {block offset dest start count : Nat}
    (blockAligned : block % BLOCKSIZE = 0) (aligned : offset % BLOCKSIZE = 0)
    (different : offset ≠ block) (low : block ≤ dest) (high : dest + count ≤ block + BLOCKSIZE) :
    AgreeAt (copyBytes img dest source start count) img offset := by
  intro index inside
  have apart := aligned_apart aligned blockAligned different
  exact copyBytes_outside _ _ _ _ _ _ (by omega)

theorem agreeAt_storeLE (img : Memory)
    (blockAligned : block % BLOCKSIZE = 0) (aligned : offset % BLOCKSIZE = 0)
    (different : offset ≠ block) (low : block ≤ dest) (high : dest + width ≤ block + BLOCKSIZE) :
    AgreeAt (storeLE img dest width value) img offset := by
  rw [storeLE_eq_copyBytes]
  exact agreeAt_copyBytes img _ blockAligned aligned different low high

theorem loadLE_agree (agree : AgreeAt left right block)
    {index width : Nat} (inside : index + width ≤ BLOCKSIZE) :
    loadLE left (block + index) width = loadLE right (block + index) width :=
  loadLE_match agree inside

theorem bnDirect_agree (agree : AgreeAt left right f)
    (bound : i < 64) : bnDirect left f i = bnDirect right f i := by
  rw [bnDirect, bnDirect, directAt, add_assoc]
  exact loadLE_agree agree (by unfold BLOCKSIZE; omega)

theorem bnSize_agree (agree : AgreeAt left right f) : bnSize left f = bnSize right f :=
  loadLE_agree agree (by unfold BLOCKSIZE; omega)

theorem Geometry.bit_place (g : Geometry) (bound : n < g.capacity) :
    n / (8 * BLOCKSIZE) < g.bitmapBlocks ∧ n / 8 % BLOCKSIZE < BLOCKSIZE ∧
    g.bitmapOffset + n / 8 =
      g.bitmapOffset + n / (8 * BLOCKSIZE) * BLOCKSIZE + n / 8 % BLOCKSIZE := by
  unfold Geometry.capacity at bound
  unfold BLOCKSIZE at *
  omega

theorem blockBit_agree (g : Geometry)
    (agree : ∀ i < g.bitmapBlocks, AgreeAt left right (g.bitmapOffset + i * BLOCKSIZE))
    (bound : n < g.capacity) : blockBit left g.bitmapOffset n = blockBit right g.bitmapOffset n := by
  obtain ⟨inside, index, place⟩ := g.bit_place bound
  rw [blockBit, blockBit, place, agree _ inside _ index]

theorem slots_agree (g : Geometry)
    (agree : ∀ f ∈ g.files, AgreeAt left right f) : slots g left = slots g right := by
  funext ⟨f, i⟩
  simp only [slots, bnDirect_agree (agree f.1 f.2) i.isLt]

theorem used_agree (g : Geometry)
    (agree : ∀ i < g.bitmapBlocks, AgreeAt left right (g.bitmapOffset + i * BLOCKSIZE)) :
    used g left = used g right := by
  ext offset
  constructor
  · rintro ⟨aligned, bound, set⟩
    exact ⟨aligned, bound, by rwa [← blockBit_agree g agree bound]⟩
  · rintro ⟨aligned, bound, set⟩
    exact ⟨aligned, bound, by rwa [blockBit_agree g agree bound]⟩

theorem Layout.agree (layout : Layout g right)
    (agree : ∀ offset, g.Reserved offset → AgreeAt left right offset) : Layout g left := by
  rw [Layout, slots_agree g (fun f member => agree f (.file f member)),
    used_agree g (fun i bound => agree _ (.bitmap i bound))]
  exact layout

theorem testBit_setByte (byte : UInt8) {bi k : Nat} (bound : bi < 8) :
    (byte ||| UInt8.ofNat (2 ^ bi)).toNat.testBit k = (byte.toNat.testBit k || decide (bi = k)) := by
  have small : 2 ^ bi < 2 ^ 8 := Nat.pow_lt_pow_right (by omega) bound
  have value : (UInt8.ofNat (2 ^ bi)).toNat = 2 ^ bi := by
    rw [UInt8.toNat_ofNat']
    exact mod_eq_of_lt small
  rw [UInt8.toNat_or, testBit_or, value, testBit_two_pow]

theorem blockBit_setBit (img : Memory) (bitmapOffset n m : Nat) :
    blockBit (setBit img bitmapOffset (n / 8) (n % 8)) bitmapOffset m =
      (blockBit img bitmapOffset m || decide (m = n)) := by
  unfold blockBit setBit
  by_cases here : m / 8 = n / 8
  · rw [here, update_self, testBit_setByte _ (mod_lt n (by omega))]
    congr 1
    apply decide_eq_decide.mpr
    omega
  · have other : bitmapOffset + m / 8 ≠ bitmapOffset + n / 8 := by omega
    have different : ¬ m = n := by
      intro same
      exact here (by rw [same])
    rw [update_of_ne other]
    simp [different]

theorem agreeAt_setBit_block (g : Geometry) (img : Memory) (bound : n < g.capacity)
    (aligned : offset % BLOCKSIZE = 0)
    (different : offset ≠ g.bitmapOffset + n / (8 * BLOCKSIZE) * BLOCKSIZE) :
    AgreeAt (setBit img g.bitmapOffset (n / 8) (n % 8)) img offset := by
  obtain ⟨inside, index, place⟩ := g.bit_place bound
  have blockAligned := g.reserved_aligned (.bitmap _ inside)
  rw [setBit, update_eq_copyBytes]
  exact agreeAt_copyBytes img _ blockAligned aligned different (by omega) (by omega)

theorem agreeAt_setBit (g : Geometry) (img : Memory) (bound : n < g.capacity)
    (aligned : offset % BLOCKSIZE = 0)
    (different : ∀ i < g.bitmapBlocks, offset ≠ g.bitmapOffset + i * BLOCKSIZE) :
    AgreeAt (setBit img g.bitmapOffset (n / 8) (n % 8)) img offset :=
  agreeAt_setBit_block g img bound aligned (different _ (g.bit_place bound).1)

theorem slots_setBit (g : Geometry) (img : Memory) (bound : n < g.capacity) :
    slots g (setBit img g.bitmapOffset (n / 8) (n % 8)) = slots g img :=
  slots_agree g (fun f member =>
    agreeAt_setBit g img bound (g.fileAligned f member) (g.fileApart f member))

theorem used_setBit (g : Geometry) (img : Memory) (bound : n < g.capacity) :
    used g (setBit img g.bitmapOffset (n / 8) (n % 8)) = insert (n * BLOCKSIZE) (used g img) := by
  ext offset
  simp only [used, Set.mem_ofPred_eq, Set.mem_insert_iff, blockBit_setBit, Bool.or_eq_true,
    decide_eq_true_eq]
  constructor
  · rintro ⟨aligned, inside, set | rfl⟩
    · exact .inr ⟨aligned, inside, set⟩
    · left
      exact (Nat.div_mul_cancel (dvd_of_mod_eq_zero aligned)).symm
  · rintro (rfl | ⟨aligned, inside, set⟩)
    · have quotient : n * BLOCKSIZE / BLOCKSIZE = n := Nat.mul_div_cancel n (by decide)
      rw [quotient]
      exact ⟨mul_mod_left _ _, bound, .inr rfl⟩
    · exact ⟨aligned, inside, .inl set⟩

theorem unused_of_clear (g : Geometry) (img : Memory)
    (clear : blockBit img g.bitmapOffset n = false) : n * BLOCKSIZE ∉ used g img := by
  rintro ⟨_, _, set⟩
  rw [Nat.mul_div_cancel n (by decide), clear] at set
  exact absurd set (by decide)

theorem Layout.setBit (layout : Layout g img)
    (bound : n < g.capacity) : Layout g (setBit img g.bitmapOffset (n / 8) (n % 8)) := by
  rw [Layout, slots_setBit g img bound, used_setBit g img bound]
  exact Owned.mark layout _

theorem directAt_inside (f : Nat) (bound : i < 64) :
    f ≤ directAt f i ∧ directAt f i + 8 ≤ f + BLOCKSIZE := by
  unfold directAt BLOCKSIZE
  omega

theorem bnDirect_store (img : Memory) (f : Nat) (small : value < word64) :
    bnDirect (storeLE img (directAt f i) 8 value) f j =
      if j = i then value else bnDirect img f j := by
  by_cases same : j = i
  · rw [if_pos same, same]
    exact loadLE_storeLE img _ 8 value small
  · rw [if_neg same]
    apply loadLE_storeLE_apart
    unfold directAt
    omega

theorem bnSize_store_direct (img : Memory) (f i value : Nat) :
    bnSize (storeLE img (directAt f i) 8 value) f = bnSize img f := by
  apply loadLE_storeLE_apart
  unfold directAt
  omega

theorem bnSize_store (img : Memory) (f : Nat) (small : value < word64) :
    bnSize (storeLE img (f + 16) 8 value) f = value :=
  loadLE_storeLE img _ 8 value small

theorem bnDirect_store_size (img : Memory) (f i value : Nat) :
    bnDirect (storeLE img (f + 16) 8 value) f i = bnDirect img f i := by
  apply loadLE_storeLE_apart
  unfold directAt
  omega

theorem agreeAt_direct (g : Geometry) (img : Memory) (member : f ∈ g.files)
    (bound : i < 64) (value : Nat) (aligned : offset % BLOCKSIZE = 0)
    (different : offset ≠ f) : AgreeAt (storeLE img (directAt f i) 8 value) img offset := by
  obtain ⟨low, high⟩ := directAt_inside f bound
  exact agreeAt_storeLE img (g.fileAligned f member) aligned different low high

theorem agreeAt_size (g : Geometry) (img : Memory) (member : f ∈ g.files) (value : Nat)
    (aligned : offset % BLOCKSIZE = 0) (different : offset ≠ f) :
    AgreeAt (storeLE img (f + 16) 8 value) img offset :=
  agreeAt_storeLE img (g.fileAligned f member) aligned different (by omega)
    (by unfold BLOCKSIZE; omega)

theorem slots_store (g : Geometry) (img : Memory) (member : f ∈ g.files) (i : Fin 64)
    (small : value < word64) (positive : value ≠ 0) :
    slots g (storeLE img (directAt f i) 8 value) =
      update (slots g img) (⟨f, member⟩, i) (some value) := by
  funext ⟨h, j⟩
  by_cases here : (h, j) = ((⟨f, member⟩, i) : g.Slot)
  · obtain ⟨rfl, rfl⟩ := Prod.mk.inj here
    rw [update_self]
    simp only [slots]
    rw [bnDirect_store img f small, if_pos rfl, if_neg positive]
  · rw [update_of_ne here]
    simp only [slots]
    have same : bnDirect (storeLE img (directAt f i) 8 value) h.1 j = bnDirect img h.1 j := by
      by_cases sameFile : h.1 = f
      · have otherIndex : (j : Nat) ≠ i := by
          intro equal
          exact here (Prod.ext (Subtype.ext sameFile) (Fin.ext equal))
        rw [sameFile, bnDirect_store img f small, if_neg otherIndex]
      · exact bnDirect_agree
          (agreeAt_direct g img member i.isLt value (g.fileAligned h.1 h.2) sameFile) j.isLt
    rw [same]

theorem bitmap_ne_file (g : Geometry) (member : f ∈ g.files)
    (bound : i < g.bitmapBlocks) : g.bitmapOffset + i * BLOCKSIZE ≠ f :=
  fun same => g.fileApart f member i bound same.symm

theorem Geometry.offset_lt (g : Geometry) (bound : n < g.capacity) : n * BLOCKSIZE < word64 := by
  have few := g.bitmapBound
  unfold Geometry.capacity at bound
  unfold BLOCKSIZE word64 at *
  omega

theorem Layout.claim (layout : Layout g img)
    (bound : n < g.capacity) (clear : blockBit img g.bitmapOffset n = false)
    (member : f ∈ g.files) (slot : i < 64) (positive : n ≠ 0) :
    Layout g (storeLE (O2fs.setBit img g.bitmapOffset (n / 8) (n % 8)) (directAt f i) 8
      (n * BLOCKSIZE)) := by
  have small := g.offset_lt bound
  have nonzero : n * BLOCKSIZE ≠ 0 := by
    unfold BLOCKSIZE
    omega
  have entered := slots_store g (O2fs.setBit img g.bitmapOffset (n / 8) (n % 8)) member
    ⟨i, slot⟩ small nonzero
  have record := used_agree g (fun j inside =>
    agreeAt_direct g (O2fs.setBit img g.bitmapOffset (n / 8) (n % 8)) member slot (n * BLOCKSIZE)
      (g.reserved_aligned (.bitmap j inside)) (bitmap_ne_file g member inside))
  rw [Layout, entered, record, slots_setBit g img bound, used_setBit g img bound]
  exact Owned.claim layout (unused_of_clear g img clear) _

theorem Layout.size (layout : Layout g img)
    (member : f ∈ g.files) (value : Nat) : Layout g (storeLE img (f + 16) 8 value) := by
  have same : slots g (storeLE img (f + 16) 8 value) = slots g img := by
    funext ⟨h, j⟩
    simp only [slots]
    by_cases sameFile : h.1 = f
    · rw [sameFile, bnDirect_store_size]
    · rw [bnDirect_agree (agreeAt_size g img member value (g.fileAligned h.1 h.2) sameFile) j.isLt]
  have record := used_agree g (fun j inside =>
    agreeAt_size g img member value (g.reserved_aligned (.bitmap j inside))
      (bitmap_ne_file g member inside))
  rw [Layout, same, record]
  exact layout

theorem slots_eq (member : f ∈ g.files) (bound : i < 64) (nonzero : bnDirect img f i ≠ 0) :
    slots g img (⟨f, member⟩, ⟨i, bound⟩) = some (bnDirect img f i) := by
  simp only [slots, if_neg nonzero]

theorem Layout.pointer (layout : Layout g img)
    (member : f ∈ g.files) (bound : i < 64) (nonzero : bnDirect img f i ≠ 0) :
    bnDirect img f i % BLOCKSIZE = 0 ∧ ¬ g.Reserved (bnDirect img f i) :=
  ⟨(layout.recorded _ _ (slots_eq member bound nonzero)).1,
    layout.unreserved _ _ (slots_eq member bound nonzero)⟩

theorem Layout.pointer_unique (layout : Layout g img) {f h : Nat}
    (member : f ∈ g.files) (other : h ∈ g.files) (bound : i < 64) (inside : j < 64)
    (nonzero : bnDirect img f i ≠ 0) (same : bnDirect img h j = bnDirect img f i) :
    h = f ∧ j = i := by
  have nonzero' : bnDirect img h j ≠ 0 := by
    rw [same]
    exact nonzero
  have owners := layout.exclusive (⟨h, other⟩, ⟨j, inside⟩) (⟨f, member⟩, ⟨i, bound⟩)
    (bnDirect img f i) (by rw [slots_eq other inside nonzero', same])
    (slots_eq member bound nonzero)
  simp only [Prod.mk.injEq, Subtype.mk.injEq, Fin.mk.injEq] at owners
  exact owners

theorem Layout.pointer_aligned (layout : Layout g img)
    (member : f ∈ g.files) (bound : i < 64) : bnDirect img f i % BLOCKSIZE = 0 := by
  by_cases zero : bnDirect img f i = 0
  · rw [zero]
    rfl
  · exact (layout.pointer member bound zero).1

end BoringOs.O2fs
