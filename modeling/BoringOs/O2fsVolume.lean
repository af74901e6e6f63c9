import BoringOs.O2fsAlloc
import Mathlib.Order.Interval.Finset.Nat

/-! A mounted volume in good order, and `O2FSGrowVNode` on it: with room on the disk the
file gets its blocks, and no other file notices. -/

namespace BoringOs.O2fs

open ByteMemory BufCache

def fileByte (img : Memory) (f i : Nat) : UInt8 :=
  img (bnDirect img f (i / BLOCKSIZE) + i % BLOCKSIZE)

def Sized (g : Geometry) (img : Memory) : Prop :=
  ∀ f ∈ g.files, bnSize img f ≤ 64 * BLOCKSIZE ∧
    ∀ i, i * BLOCKSIZE < bnSize img f → bnDirect img f i ≠ 0

theorem Sized.agree {g : Geometry} {left right : Memory} (sized : Sized g right)
    (agree : ∀ f ∈ g.files, AgreeAt left right f) : Sized g left := by
  intro f member
  obtain ⟨most, present⟩ := sized f member
  rw [bnSize_agree (agree f member)]
  refine ⟨most, ?_⟩
  intro i below
  have slot : i < 64 := by
    unfold BLOCKSIZE at *
    omega
  rw [bnDirect_agree (agree f member) slot]
  exact present i below

/-- A mounted volume in good order, with transfers that succeed. -/
structure Volume (bufBase : Nat) (g : Geometry) (fs : VFS) (s : BufState) : Prop where
  coherent : Coherent bufBase everyBlock s
  mounted : Mounted g fs s
  reads : ∀ n, s.readStatus n = 0
  writes : ∀ n, s.writeStatus n = 0
  blockSize : sbBlockSize (image s g.disk) 0 = BLOCKSIZE
  layout : Layout g (image s g.disk)
  sized : Sized g (image s g.disk)

structure Opened (g : Geometry) (fs : VFS) (s : BufState) (vn : VNode) (f : Nat) : Prop where
  vfs : vn.vfs = fs
  disk : vn.disk = g.disk
  member : f ∈ g.files
  held : Held s vn.fsptr g.disk f

def freeBlocks (g : Geometry) (img : Memory) : Finset Nat :=
  (Finset.range (min (sbBlockCount img 0) g.capacity)).filter
    (fun n => blockBit img g.bitmapOffset n = false)

def emptySlots (img : Memory) (f first stop : Nat) : Finset Nat :=
  (Finset.Ico first stop).filter (fun i => bnDirect img f i = 0)

variable {t : BufState} {n filesz i : Nat} {e x : EntryId} {before : Memory}

section

variable {bufBase : Nat} {trusted : DiskId → Nat → Prop} {g : Geometry} {fs : VFS} {s : BufState}
  {vn : VNode} {f : Nat}

theorem Opened.keep (opened : Opened g fs s vn f)
    (kept : ∀ e disk offset, Held s e disk offset → Held t e disk offset) : Opened g fs t vn f :=
  ⟨opened.vfs, opened.disk, opened.member, kept _ _ _ opened.held⟩

theorem Volume.of_retained (volume : Volume bufBase g fs s)
    (retained : Retained bufBase s t n) : Volume bufBase g fs t where
  coherent := retained.coherent
  mounted := volume.mounted.keep retained.kept
  reads := retained.reads
  writes m := by rw [retained.writeStatus]; exact volume.writes m
  blockSize := by rw [retained.images]; exact volume.blockSize
  layout := by rw [retained.images]; exact volume.layout
  sized := by rw [retained.images]; exact volume.sized

theorem Opened.direct (inv : RepInv bufBase s) (opened : Opened g fs s vn f) (bound : i < 64) :
    bnDirect s.memory (bufferOf s vn.fsptr) i = bnDirect (image s g.disk) f i := by
  have inside : 64 + 64 * i + 8 ≤ BLOCKSIZE := by
    unfold BLOCKSIZE
    omega
  rw [bnDirect, bnDirect, directAt, directAt, add_assoc, add_assoc]
  exact loadLE_image inv opened.held.1 (g.fileAligned f opened.member) inside

theorem Opened.size (inv : RepInv bufBase s) (opened : Opened g fs s vn f) :
    bnSize s.memory (bufferOf s vn.fsptr) = bnSize (image s g.disk) f :=
  loadLE_image inv opened.held.1 (g.fileAligned f opened.member) (by unfold BLOCKSIZE; omega)

theorem Mounted.blockSize (inv : RepInv bufBase s) (mounted : Mounted g fs s) :
    sbBlockSize s.memory (bufferOf s fs.fsptr) = sbBlockSize (image s g.disk) 0 :=
  loadLE_image inv mounted.superblock.1 rfl (by unfold BLOCKSIZE; omega)

theorem Volume.readsBlockSize (volume : Volume bufBase g fs s) (vfs : vn.vfs = fs) :
    sbBlockSize s.memory (bufferOf s vn.vfs.fsptr) = BLOCKSIZE := by
  rw [vfs, volume.mounted.blockSize volume.coherent.rep, volume.blockSize]

end

section

variable {bufBase : Nat} {g : Geometry} {fs : VFS} {s : BufState} {vn : VNode} {f : Nat}

theorem claimed_outside (inv : RepInv bufBase s)
    (bound : e < CACHEENTRIES) (nodeBound : x < CACHEENTRIES) (slot : i < 64) {address : Nat}
    (free : Outside bufBase address) :
    (claimed s e g n (bufferOf s x) i).memory address = s.memory address := by
  have place : address < directAt (bufferOf s x) i ∨ directAt (bufferOf s x) i + 8 ≤ address := by
    by_contra inside
    unfold directAt bufferOf at inside
    exact inv.buffer_inside nodeBound (by omega) (by unfold BLOCKSIZE; omega) free
  have byte : address ≠ bufferOf s e + n / 8 % BLOCKSIZE := by
    rintro rfl
    have := blockIndex_lt (n / 8)
    exact inv.buffer_inside bound (by unfold bufferOf; omega) (by unfold bufferOf; omega) free
  calc (claimed s e g n (bufferOf s x) i).memory address
      = (allocated s e g n).memory address := storeLE_outside _ _ _ _ _ place
    _ = s.memory address := Function.update_of_ne byte _ _

/-- The state when round `i` of `O2FSGrowVNode` starts: slots from `first` on are filled. -/
structure Growth (bufBase : Nat) (trusted : DiskId → Nat → Prop) (g : Geometry) (start : BufState)
  (f first i : Nat) (s : BufState) : Prop where
  coherent : Coherent bufBase trusted s
  entries : s.entry = start.entry
  writes : ∀ n, s.writeStatus n = 0
  grown : Grown g f (image start g.disk) (image s g.disk)
  filled : ∀ j, first ≤ j → j < i → bnDirect (image s g.disk) f j ≠ 0

section

variable {trusted : DiskId → Nat → Prop} {start : BufState} {first : Nat}

section

variable (growth : Growth bufBase trusted g start f first i s)
include growth

theorem Growth.skip (present : bnDirect (image s g.disk) f i ≠ 0) :
    Growth bufBase trusted g start f first (i + 1) s := by
  refine ⟨growth.coherent, growth.entries, growth.writes, growth.grown, ?_⟩
  intro j low high
  by_cases here : j = i
  · rw [here]
    exact present
  · exact growth.filled j low (by omega)

theorem Growth.node (opened : Opened g fs start vn f) : Opened g fs s vn f :=
  opened.keep (Steady.of_entry growth.entries).kept

theorem Growth.buffer (e : EntryId) : bufferOf start e = bufferOf s e := by
  rw [bufferOf, bufferOf, growth.entries]

theorem Growth.direct (opened : Opened g fs start vn f) {j : Nat} (bound : j < 64) :
    bnDirect s.memory (bufferOf start vn.fsptr) j = bnDirect (image s g.disk) f j := by
  rw [growth.buffer]
  exact (growth.node opened).direct growth.coherent.rep bound

theorem Growth.claimed_eq (mounted : Mounted g fs start) (bound : n < g.capacity)
    (result : o2fsBAlloc fs s = (n, allocated s e g n)) :
    withMemory (o2fsBAlloc fs s).2 (storeLE (o2fsBAlloc fs s).2.memory
      (directAt (bufferOf start x) i) 8 (mul64 (o2fsBAlloc fs s).1 fs.blksize)) =
        claimed s e g n (bufferOf s x) i := by
  have product : mul64 n fs.blksize = n * BLOCKSIZE := by
    rw [mounted.blksize]
    exact mul64_of_lt (g.offset_lt bound)
  rw [result, product, growth.buffer]
  rfl

theorem Growth.take (opened : Opened g fs start vn f) (bound : n < g.capacity)
    (positive : n ≠ 0) (clear : blockBit (image s g.disk) g.bitmapOffset n = false)
    (held : Held s e g.disk (g.bitmapOffset + n / (8 * BLOCKSIZE) * BLOCKSIZE)) (slot : i < 64)
    (absent : bnDirect (image s g.disk) f i = 0) :
    Growth bufBase trusted g start f first (i + 1) (claimed s e g n (bufferOf s vn.fsptr) i) := by
  obtain ⟨coherent, own, _⟩ :=
    claimed_image growth.coherent bound held (growth.node opened).held slot
  refine ⟨coherent, growth.entries, fun m => growth.writes (m + 1), ?_, ?_⟩
  · rw [own]
    exact growth.grown.claim opened.member bound positive clear slot absent
  · intro j low high
    rw [own, bnDirect_store _ f (g.offset_lt bound)]
    by_cases here : j = i
    · rw [if_pos here]
      unfold BLOCKSIZE
      omega
    · rw [if_neg here, bnDirect_agree (agreeAt_setBit g _ bound (g.fileAligned f opened.member)
        (g.fileApart f opened.member)) (by omega)]
      exact growth.filled j low (by omega)

end

end

structure Growing (bufBase : Nat) (g : Geometry) (start : BufState) (f first stop i : Nat)
  (s : BufState) : Prop where
  growth : Growth bufBase everyBlock g start f first i s
  reads : s.readStatus = start.readStatus
  outside : ∀ address, Outside bufBase address → s.memory address = start.memory address
  disks : ∀ d, d ≠ g.disk → image s d = image start d
  room : (emptySlots (image s g.disk) f i stop).card ≤ (freeBlocks g (image s g.disk)).card

/-- The block node of `f` has its new size; all else is as `Grown` says. -/
structure Resized (g : Geometry) (f filesz : Nat) (before after : Memory) : Prop where
  files : ∀ h ∈ g.files, h ≠ f → AgreeAt after before h
  size : bnSize after f = filesz
  pointers : ∀ i < 64, bnDirect before f i ≠ 0 → bnDirect after f i = bnDirect before f i
  data : ∀ offset, offset % BLOCKSIZE = 0 → ¬ g.Reserved offset → AgreeAt after before offset

theorem Grown.resize {before img : Memory} (grown : Grown g f before img) (member : f ∈ g.files)
    (small : filesz < word64) : Resized g f filesz before (storeLE img (f + 16) 8 filesz) := by
  constructor
  · intro h inside other
    exact (agreeAt_size g img member filesz (g.fileAligned h inside) other).trans
      (grown.files h inside other)
  · exact bnSize_store img f small
  · intro i bound present
    rw [bnDirect_store_size]
    exact grown.pointers i bound present
  · intro offset aligned free
    refine (agreeAt_size g img member filesz aligned ?_).trans (grown.data offset aligned free)
    rintro rfl
    exact free (.file _ member)

theorem Resized.sized {before after : Memory} (sized : Sized g before)
    (resized : Resized g f filesz before after) (member : f ∈ g.files)
    (bound : filesz ≤ 64 * BLOCKSIZE)
    (filled : ∀ i, blockCeil (bnSize before f) ≤ i → i < blockCeil filesz →
      bnDirect after f i ≠ 0) : Sized g after := by
  intro h inside
  by_cases same : h = f
  · subst h
    rw [resized.size]
    refine ⟨bound, ?_⟩
    intro i below
    by_cases old : i * BLOCKSIZE < bnSize before f
    · have present := (sized f member).2 i old
      have slot : i < 64 := by
        unfold BLOCKSIZE at *
        omega
      rw [resized.pointers i slot present]
      exact present
    · apply filled i
      · by_contra less
        exact old (lt_blockCeil.mp (by omega))
      · exact lt_blockCeil.mpr below
  · have agree := resized.files h inside same
    obtain ⟨most, present⟩ := sized h inside
    rw [bnSize_agree agree]
    refine ⟨most, ?_⟩
    intro i below
    have slot : i < 64 := by
      unfold BLOCKSIZE at *
      omega
    rw [bnDirect_agree agree slot]
    exact present i below

theorem Growth.finish {trusted : DiskId → Nat → Prop}
    (sized : Sized g (image s g.disk)) (opened : Opened g fs s vn f)
    (growth : Growth bufBase trusted g s f (blockCeil (bnSize (image s g.disk) f))
      (blockCeil filesz) t) (bound : filesz ≤ 64 * BLOCKSIZE) :
    let stored := withMemory t (storeLE t.memory (bufferOf s vn.fsptr + 16) 8 filesz)
    (bufCache_Write stored vn.fsptr).2 = writtenBack stored vn.fsptr g.disk f ∧
    HasKey stored vn.fsptr g.disk f ∧ Coherent bufBase trusted stored ∧
    image stored g.disk = storeLE (image t g.disk) (f + 16) 8 filesz ∧
    (∀ d, d ≠ g.disk → image stored d = image t d) ∧
    Resized g f filesz (image s g.disk) (image stored g.disk) ∧
    Layout g (image stored g.disk) ∧ Sized g (image stored g.disk) ∧
    AgreeAt (image stored g.disk) (image s g.disk) 0 := by
  intro stored
  have small : filesz < word64 := by
    unfold BLOCKSIZE word64 at *
    omega
  have node := (growth.node opened).held
  have state : stored = withMemory t
      (storeLE t.memory ((t.entry vn.fsptr).buffer + 16) 8 filesz) := by
    simp only [stored]
    rw [growth.buffer]
    rfl
  obtain ⟨coherent, own, others⟩ := store_image growth.coherent node
    (show 16 + 8 ≤ BLOCKSIZE by decide) filesz
  have key : HasKey stored vn.fsptr g.disk f := node.1
  have ok : stored.writeStatus 0 = 0 := growth.writes 0
  rw [← state] at coherent own others
  have resized : Resized g f filesz (image s g.disk) (image stored g.disk) := by
    rw [own]
    exact growth.grown.resize opened.member small
  refine ⟨by rw [bufCache_Write_eq key ok], key, coherent, own, others, resized, ?_, ?_, ?_⟩
  · rw [own]
    exact growth.grown.layout.size opened.member filesz
  · refine resized.sized sized opened.member bound ?_
    intro i low high
    rw [own, bnDirect_store_size]
    exact growth.filled i low high
  · rw [own]
    have positive := g.filePositive f opened.member
    exact (agreeAt_size g _ opened.member filesz rfl (by omega)).trans growth.grown.superblock

theorem Growing.finish (volume : Volume bufBase g fs s) (opened : Opened g fs s vn f)
    (growing : Growing bufBase g s f (blockCeil (bnSize (image s g.disk) f)) (blockCeil filesz)
      (blockCeil filesz) t) (bound : filesz ≤ 64 * BLOCKSIZE) :
    let u := (bufCache_Write (withMemory t
      (storeLE t.memory (bufferOf s vn.fsptr + 16) 8 filesz)) vn.fsptr).2
    Volume bufBase g fs u ∧ u.entry = s.entry ∧
    (∀ address, Outside bufBase address → u.memory address = s.memory address) ∧
    (∀ d, d ≠ g.disk → image u d = image s d) ∧
    Resized g f filesz (image s g.disk) (image u g.disk) := by
  intro u
  have growth := growing.growth
  have node := (growth.node opened).held
  obtain ⟨result, key, stored, own, others, resized, layout, sized, superblock⟩ :=
    growth.finish volume.sized opened bound
  obtain ⟨coherent, same⟩ := writtenBack_image stored key
  have state : u = writtenBack _ vn.fsptr g.disk f := result
  have entries : u.entry = s.entry := by
    rw [state]
    exact growth.entries
  rw [← same] at layout sized superblock resized
  refine ⟨⟨?_, volume.mounted.keep (Steady.of_entry entries).kept, ?_, ?_, ?_, ?_, ?_⟩, entries,
    ?_, ?_, ?_⟩
  · rw [state]
    exact coherent
  · intro n
    rw [state]
    exact (congrFun growing.reads n).trans (volume.reads n)
  · intro n
    rw [state]
    exact growth.writes (n + 1)
  · rw [state, sbBlockSize, loadLE_agree superblock (by unfold BLOCKSIZE; omega)]
    exact volume.blockSize
  · rw [state]
    exact layout
  · rw [state]
    exact sized
  · intro address free
    rw [state, ← growing.outside address free]
    apply storeLE_outside
    by_contra inside
    rw [growth.buffer] at inside
    exact growth.coherent.rep.buffer_inside node.1.1 (by unfold bufferOf at inside; omega)
      (by unfold bufferOf at inside; unfold BLOCKSIZE; omega) free
  · intro d other
    rw [state, same, others d other, growing.disks d other]
  · rw [state]
    exact resized

end

end BoringOs.O2fs
