import BoringOs.O2fsVolume
import Mathlib.Data.Nat.Count

/-! Which blocks `O2FSGrowVNode` gives to a file. The empty slots are filled in order with the clear
bits in order, so the slot that comes after `r` other empty ones gets the clear bit with `r` clear
ones below it. -/

namespace BoringOs.O2fs

open ByteMemory BufCache

def Clear (g : Geometry) (img : Memory) (n : Nat) : Prop := blockBit img g.bitmapOffset n = false

instance (g : Geometry) (img : Memory) : DecidablePred (Clear g img) :=
  fun n => inferInstanceAs (Decidable (blockBit img g.bitmapOffset n = false))

def clearCount (g : Geometry) (img : Memory) : Nat := Nat.count (Clear g img) g.capacity

theorem count_le_of_lower {p : Nat → Prop} [DecidablePred p] {r n : Nat}
    (lower : ∀ m < n, p m → Nat.count p m < r) : Nat.count p n ≤ r := by
  induction n with
  | zero => simp
  | succ n ih =>
    have below := ih (fun m less => lower m (by omega))
    rw [Nat.count_succ]
    split
    · rename_i holds
      have := lower n (by omega) holds
      omega
    · exact below

theorem emptySlots_succ {img : Memory} {f first i : Nat} (low : first ≤ i) :
    (emptySlots img f first (i + 1)).card =
      (emptySlots img f first i).card + if bnDirect img f i = 0 then 1 else 0 := by
  have whole : Finset.Ico first (i + 1) = insert i (Finset.Ico first i) := by
    ext j
    simp only [Finset.mem_Ico, Finset.mem_insert]
    omega
  unfold emptySlots
  rw [whole, Finset.filter_insert]
  split
  · rw [Finset.card_insert_of_notMem (by simp)]
  · rfl

theorem emptySlots_mono (img : Memory) (f first : Nat) {i j : Nat} (less : i ≤ j) :
    (emptySlots img f first i).card ≤ (emptySlots img f first j).card := by
  refine Finset.card_le_card (Finset.filter_subset_filter _ ?_)
  exact Finset.Ico_subset_Ico_right less

/-- The state when round `i` of `O2FSGrowVNode` starts, with the blocks that were taken. -/
structure Filling (bufBase : Nat) (g : Geometry) (start : BufState) (f first i : Nat)
  (s : BufState) : Prop where
  growth : Growth bufBase everyBlock g start f first i s
  reads : s.readStatus = start.readStatus
  outside : ∀ address, Outside bufBase address → s.memory address = start.memory address
  disks : ∀ d, d ≠ g.disk → image s d = image start d
  later : ∀ j, i ≤ j → j < 64 → bnDirect (image s g.disk) f j = bnDirect (image start g.disk) f j
  bits : ∀ m < g.capacity, Clear g (image s g.disk) m ↔ Clear g (image start g.disk) m ∧
    (emptySlots (image start g.disk) f first i).card ≤ Nat.count (Clear g (image start g.disk)) m
  taken : ∀ j, first ≤ j → j < i → bnDirect (image start g.disk) f j = 0 →
    ∃ n < g.capacity, Clear g (image start g.disk) n ∧
      Nat.count (Clear g (image start g.disk)) n =
        (emptySlots (image start g.disk) f first j).card ∧
      bnDirect (image s g.disk) f j = n * BLOCKSIZE
  room : (emptySlots (image start g.disk) f first i).card ≤ clearCount g (image start g.disk)
  untouched : (emptySlots (image start g.disk) f first i).card = 0 → s = start

section

variable {bufBase : Nat} {g : Geometry} {fs : VFS} {start s : BufState} {vn : VNode}
  {f first i : Nat}

theorem Volume.filling (volume : Volume bufBase g fs start) (f first : Nat) :
    Filling bufBase g start f first first start where
  growth := ⟨volume.coherent, rfl, volume.writes, .refl volume.layout f, fun j low high => by omega⟩
  reads := rfl
  outside _ _ := rfl
  disks _ _ := rfl
  later _ _ _ := rfl
  bits m _ := by simp [emptySlots]
  taken j low high := by omega
  room := by simp [emptySlots]
  untouched _ := rfl

theorem Filling.skip (filling : Filling bufBase g start f first i s) (low : first ≤ i) (slot : i < 64)
    (present : bnDirect (image s g.disk) f i ≠ 0) : Filling bufBase g start f first (i + 1) s := by
  have old : bnDirect (image start g.disk) f i ≠ 0 := by
    rw [← filling.later i le_rfl slot]
    exact present
  have same : (emptySlots (image start g.disk) f first (i + 1)).card =
      (emptySlots (image start g.disk) f first i).card := by
    rw [emptySlots_succ low, if_neg old, add_zero]
  refine ⟨filling.growth.skip present, filling.reads, filling.outside, filling.disks,
    fun j above => filling.later j (by omega), ?_, ?_, ?_, ?_⟩
  · rw [same]
    exact filling.bits
  · intro j from_ below empty
    by_cases here : j = i
    · exact absurd (here ▸ empty) old
    · exact filling.taken j from_ (by omega) empty
  · rw [same]
    exact filling.room
  · rw [same]
    exact filling.untouched

theorem Filling.rank (filling : Filling bufBase g start f first i s) {n : Nat} (bound : n < g.capacity)
    (clear : Clear g (image s g.disk) n)
    (lower : ∀ m < n, blockBit (image s g.disk) g.bitmapOffset m = true) :
    Clear g (image start g.disk) n ∧ Nat.count (Clear g (image start g.disk)) n =
      (emptySlots (image start g.disk) f first i).card := by
  obtain ⟨old, least⟩ := (filling.bits n bound).mp clear
  refine ⟨old, le_antisymm (count_le_of_lower ?_) least⟩
  intro m less holds
  by_contra enough
  have still : Clear g (image s g.disk) m := (filling.bits m (by omega)).mpr ⟨holds, by omega⟩
  rw [Clear, lower m less] at still
  cases still

theorem Filling.take (mounted : Mounted g fs start) (opened : Opened g fs start vn f)
    (filling : Filling bufBase g start f first i s) (low : first ≤ i) (slot : i < 64)
    (absent : bnDirect (image s g.disk) f i = 0) (found : (o2fsBAlloc fs s).1 ≠ 0) :
    Filling bufBase g start f first (i + 1) (withMemory (o2fsBAlloc fs s).2
      (storeLE (o2fsBAlloc fs s).2.memory (directAt (bufferOf start vn.fsptr) i) 8
        (mul64 (o2fsBAlloc fs s).1 fs.blksize))) := by
  have growth := filling.growth
  have node := (growth.node opened).held
  rcases o2fsBAlloc_layout growth.coherent.rep (mounted.keep (Steady.of_entry growth.entries).kept)
    growth.grown.layout (growth.writes 0) with
    ⟨_, none⟩ | ⟨n, e, bound, positive, clear, lower, held, result⟩
  · rw [none] at found
    exact absurd rfl found
  · obtain ⟨_, own, others⟩ := claimed_image growth.coherent bound held node slot
    obtain ⟨old, rank⟩ := filling.rank bound clear lower
    have empty : bnDirect (image start g.disk) f i = 0 := by
      rw [← filling.later i le_rfl slot]
      exact absent
    have more : (emptySlots (image start g.disk) f first (i + 1)).card =
        (emptySlots (image start g.disk) f first i).card + 1 := by
      rw [emptySlots_succ low, if_pos empty]
    have pointer : ∀ j < 64, bnDirect (image (claimed s e g n (bufferOf s vn.fsptr) i) g.disk) f j =
        if j = i then n * BLOCKSIZE else bnDirect (image s g.disk) f j := by
      intro j inside
      rw [own, bnDirect_store _ f (g.offset_lt bound)]
      split
      · rfl
      · exact bnDirect_agree (agreeAt_setBit g _ bound (g.fileAligned f opened.member)
          (g.fileApart f opened.member)) inside
    rw [growth.claimed_eq mounted bound result]
    refine ⟨growth.take opened bound positive clear held slot absent, filling.reads, ?_, ?_, ?_, ?_,
      ?_, ?_, ?_⟩
    · intro address out
      exact (claimed_outside growth.coherent.rep held.1.1 node.1.1 slot out).trans
        (filling.outside address out)
    · intro d other
      exact (others d other).trans (filling.disks d other)
    · intro j above inside
      rw [pointer j inside, if_neg (by omega)]
      exact filling.later j (by omega) inside
    · intro m inside
      have bit : Clear g (image (claimed s e g n (bufferOf s vn.fsptr) i) g.disk) m ↔
          Clear g (image s g.disk) m ∧ m ≠ n := by
        rw [Clear, own, blockBit_agree g (fun j inBitmap => agreeAt_direct g _ opened.member slot _
          (g.reserved_aligned (.bitmap j inBitmap)) (bitmap_ne_file g opened.member inBitmap)) inside,
          blockBit_setBit, Bool.or_eq_false_iff, decide_eq_false_iff_not]
        rfl
      rw [bit, filling.bits m inside, more]
      constructor
      · rintro ⟨⟨was, least⟩, other⟩
        refine ⟨was, ?_⟩
        by_contra less
        exact other (Nat.count_injective was old (by omega))
      · rintro ⟨was, least⟩
        refine ⟨⟨was, by omega⟩, ?_⟩
        rintro rfl
        omega
    · intro j from_ below free
      rw [pointer j (by omega)]
      by_cases here : j = i
      · subst j
        exact ⟨n, bound, old, rank, if_pos rfl⟩
      · rw [if_neg here]
        exact filling.taken j from_ (by omega) free
    · have counted := Nat.count_monotone (Clear g (image start g.disk)) (show n + 1 ≤ g.capacity by omega)
      rw [Nat.count_succ, if_pos old, rank] at counted
      rw [more]
      exact counted
    · intro none
      omega

end

section

variable {bufBase : Nat} {g : Geometry} {fs : VFS} {s : BufState} {vn : VNode} {f filesz : Nat}

structure GrownTo (bufBase : Nat) (g : Geometry) (fs : VFS) (f filesz : Nat) (s t : BufState) : Prop where
  volume : Volume bufBase g fs t
  entries : t.entry = s.entry
  outside : ∀ address, Outside bufBase address → t.memory address = s.memory address
  disks : ∀ d, d ≠ g.disk → image t d = image s d
  resized : Resized g f filesz (image s g.disk) (image t g.disk)
  taken : ∀ j, blockCeil (bnSize (image s g.disk) f) ≤ j → j < blockCeil filesz →
    bnDirect (image s g.disk) f j = 0 → ∃ n < g.capacity, Clear g (image s g.disk) n ∧
      Nat.count (Clear g (image s g.disk)) n =
        (emptySlots (image s g.disk) f (blockCeil (bnSize (image s g.disk) f)) j).card ∧
      bnDirect (image t g.disk) f j = n * BLOCKSIZE

structure RanOut (g : Geometry) (s t : BufState) : Prop where
  full : ∀ n < g.capacity, ¬ Clear g (image t g.disk) n
  untouched : clearCount g (image s g.disk) = 0 → t = s

theorem o2fsGrowVNode_cases (volume : Volume bufBase g fs s) (opened : Opened g fs s vn f)
    (bound : filesz ≤ 64 * BLOCKSIZE) (larger : bnSize (image s g.disk) f < filesz) :
    ((emptySlots (image s g.disk) f (blockCeil (bnSize (image s g.disk) f)) (blockCeil filesz)).card ≤
        clearCount g (image s g.disk) ∧
      ∃ t, o2fsGrowVNode vn filesz s = some (0, t) ∧ GrownTo bufBase g fs f filesz s t) ∨
    (clearCount g (image s g.disk) <
        (emptySlots (image s g.disk) f (blockCeil (bnSize (image s g.disk) f)) (blockCeil filesz)).card ∧
      ∃ t, o2fsGrowVNode vn filesz s = some (-ENOSPC, t) ∧ RanOut g s t) := by
  have size := opened.size volume.coherent.rep
  have sizeBound : bnSize (image s g.disk) f ≤ 64 * BLOCKSIZE := (volume.sized f opened.member).1
  have stopBound := blockCeil_le bound
  have ordered : blockCeil (bnSize (image s g.disk) f) ≤ blockCeil filesz := by
    unfold blockCeil
    exact Nat.div_le_div_right (by omega)
  have ran := growLoop_rule fs (bufferOf s vn.fsptr) (blockCeil filesz)
    (fun i t => blockCeil (bnSize (image s g.disk) f) ≤ i ∧
      Filling bufBase g s f (blockCeil (bnSize (image s g.disk) f)) i t)
    (fun t => clearCount g (image s g.disk) < (emptySlots (image s g.disk) f
      (blockCeil (bnSize (image s g.disk) f)) (blockCeil filesz)).card ∧ RanOut g s t)
    ?skip ?full ?take (blockCeil filesz - blockCeil (bnSize (image s g.disk) f))
    (blockCeil (bnSize (image s g.disk) f)) s
    ⟨le_rfl, volume.filling f (blockCeil (bnSize (image s g.disk) f))⟩ (by omega)
  · have result := o2fsGrowVNode_eq opened.vfs volume.mounted.blksize size sizeBound bound
    rcases ran with ⟨status, _, filling⟩ | ⟨status, short, ended⟩
    · left
      refine ⟨filling.room, _, by rw [result, if_neg (not_not.mpr status)], ?_⟩
      have growing : Growing bufBase g s f (blockCeil (bnSize (image s g.disk) f)) (blockCeil filesz)
          (blockCeil filesz) _ :=
        ⟨filling.growth, filling.reads, filling.outside, filling.disks, by simp [emptySlots]⟩
      obtain ⟨after, entries, outside, disks, resized⟩ := growing.finish volume opened bound
      refine ⟨after, entries, outside, disks, resized, ?_⟩
      intro j low high empty
      obtain ⟨n, inside, clear, rank, pointer⟩ := filling.taken j low high empty
      refine ⟨n, inside, clear, rank, ?_⟩
      obtain ⟨written, key, stored, own, _⟩ := filling.growth.finish volume.sized opened bound
      rw [written, (writtenBack_image stored key).2, own, bnDirect_store_size]
      exact pointer
    · right
      have failed : (growLoop fs (bufferOf s vn.fsptr)
          (blockCeil filesz - blockCeil (bnSize (image s g.disk) f))
          (blockCeil (bnSize (image s g.disk) f)) s).1 ≠ 0 := by
        rw [status]
        decide
      refine ⟨short, _, ?_, ended⟩
      rw [result, if_pos failed, ← status]
  case skip =>
    rintro i t ⟨low, filling⟩ less present
    rw [filling.growth.direct opened (by omega)] at present
    exact ⟨by omega, filling.skip low (by omega) present⟩
  case full =>
    rintro i t ⟨low, filling⟩ less absent none
    rw [filling.growth.direct opened (by omega)] at absent
    have empty : bnDirect (image s g.disk) f i = 0 := by
      rw [← filling.later i le_rfl (by omega)]
      exact absent
    have more := emptySlots_mono (image s g.disk) f (blockCeil (bnSize (image s g.disk) f))
      (show i + 1 ≤ blockCeil filesz by omega)
    rw [emptySlots_succ low, if_pos empty] at more
    rcases o2fsBAlloc_layout filling.growth.coherent.rep
      (volume.mounted.keep (Steady.of_entry filling.growth.entries).kept)
      filling.growth.grown.layout (filling.growth.writes 0) with
      ⟨full, result⟩ | ⟨n, e, _, positive, _, _, _, result⟩
    · have short : clearCount g (image s g.disk) ≤ (emptySlots (image s g.disk) f
          (blockCeil (bnSize (image s g.disk) f)) i).card := by
        refine count_le_of_lower ?_
        intro m inside holds
        by_contra enough
        have still := (filling.bits m inside).mpr ⟨holds, by omega⟩
        rw [Clear, full m inside] at still
        cases still
      rw [result]
      refine ⟨by omega, ?_, ?_⟩
      · intro n inside clear
        rw [Clear, full n inside] at clear
        cases clear
      · intro zero
        have room := filling.room
        exact filling.untouched (by omega)
    · rw [result] at none
      exact absurd none positive
  case take =>
    rintro i t ⟨low, filling⟩ less absent found
    rw [filling.growth.direct opened (by omega)] at absent
    exact ⟨by omega, filling.take volume.mounted opened low (by omega) absent found⟩

theorem o2fsGrowVNode_grows (volume : Volume bufBase g fs s) (opened : Opened g fs s vn f)
    {filesz : Nat} (bound : filesz ≤ 64 * BLOCKSIZE) (larger : bnSize (image s g.disk) f < filesz)
    (room : (emptySlots (image s g.disk) f (blockCeil (bnSize (image s g.disk) f))
      (blockCeil filesz)).card ≤ (freeBlocks g (image s g.disk)).card) :
    ∃ t, o2fsGrowVNode vn filesz s = some (0, t) ∧ GrownTo bufBase g fs f filesz s t := by
  have counted : (freeBlocks g (image s g.disk)).card ≤ clearCount g (image s g.disk) := by
    rw [clearCount, Nat.count_eq_card_filter_range]
    refine Finset.card_le_card (fun n free => ?_)
    obtain ⟨below, clear⟩ := Finset.mem_filter.mp free
    have inside := Finset.mem_range.mp below
    exact Finset.mem_filter.mpr ⟨Finset.mem_range.mpr (by omega), clear⟩
  rcases o2fsGrowVNode_cases volume opened bound larger with ⟨_, t, ran, grown⟩ | ⟨short, _⟩
  · exact ⟨t, ran, grown⟩
  · omega

end

end BoringOs.O2fs
