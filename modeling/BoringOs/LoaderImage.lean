import BoringOs.LoaderSpace
import BoringOs.O2fsExact

/-! What `Loader_Load` leaves in the memory of a fresh process. -/

namespace BoringOs.Loader

open ByteMemory BufCache O2fs PAlloc PMap Option Nat

/-- The address at which the kernel finds the byte of a mapped address of the process. -/
def placeOf (frames : Frames) (root va : Nat) : Nat :=
  DMPA2VA (frameAt frames root va * PGSIZE + va % PGSIZE)

/-- How much of the file its loader is given in `buf`. -/
def HEADER_LENGTH : Nat := 1024

/-- The pages that may be given to the process are neither behind the cache nor behind `buf`. -/
structure Apart (fixed : List Nat) (bufBase buf : Nat) : Prop where
  pages : ∀ pg < DIRECTMAP_PAGES, pg ∉ fixed → ∀ o < PGSIZE,
    Outside bufBase (DMPA2VA (pg * PGSIZE + o)) ∧
      ∀ k < HEADER_LENGTH, DMPA2VA (pg * PGSIZE + o) ≠ buf + k
  header : ∀ k < HEADER_LENGTH, Outside bufBase (buf + k)
  pointer : buf + HEADER_LENGTH < word64

structure UserMapped (frames : Frames) (root va : Nat) : Prop where
  user : va < MEM_USERSPACE_TOP
  mapped : entryAt frames root va ≠ 0

section

variable {piece : Nat → Nat → Nat → Loading → Option Loading} {inv : Nat → Loading → Prop}
  {vaddr len : Nat}

/-- The loop over whole pages: `inv k` holds when `k` bytes are done. -/
theorem eachPiece_rule (bound : vaddr + len < word64)
    (step : ∀ k n s, inv k s → (vaddr + k) % PGSIZE + n ≤ PGSIZE → k + n ≤ len → 0 < n →
      ∃ t, piece (vaddr + k) k n s = some t ∧ inv (k + n) t) :
    ∀ rounds k s, inv k s → ((vaddr + k) % PGSIZE = 0 ∨ k = len) → k ≤ len → len - k < rounds →
      ∃ t, eachPiece piece rounds (vaddr + k) k (len - k) s = some t ∧ inv len t := by
  intro rounds
  induction rounds with
  | zero =>
    intro k s _ _ _ enough
    omega
  | succ rounds ih =>
    intro k s holds boundary less enough
    rw [eachPiece]
    by_cases more : len - k > PGSIZE
    · have page : 0 < PGSIZE := by decide
      obtain ⟨t, ran, next⟩ := step k PGSIZE s holds (by omega) (by omega) page
      have address : add64 (vaddr + k) PGSIZE = vaddr + (k + PGSIZE) := by
        rw [add64_of_lt (by omega), add_assoc]
      have rest : len - k - PGSIZE = len - (k + PGSIZE) := by omega
      rw [if_pos more, ran, bind_some, address, rest]
      refine ih (k + PGSIZE) t next (.inl ?_) (by omega) (by omega)
      rw [← add_assoc, add_mod_right]
      omega
    · rw [if_neg more]
      by_cases last : len - k > 0
      · rw [if_pos last]
        obtain ⟨t, ran, next⟩ := step k (len - k) s holds (by omega) (by omega) last
        refine ⟨t, ran, ?_⟩
        rwa [Nat.add_sub_cancel' less] at next
      · rw [if_neg last]
        obtain rfl : k = len := by omega
        exact ⟨s, rfl, holds⟩

theorem eachSegmentPage_rule (bound : vaddr + len < word64)
    (step : ∀ k n s, inv k s → (vaddr + k) % PGSIZE + n ≤ PGSIZE → k + n ≤ len →
      (0 < n ∨ k = 0 ∧ vaddr % PGSIZE ≠ 0) → ∃ t, piece (vaddr + k) k n s = some t ∧ inv (k + n) t)
    {s : Loading} (start : inv 0 s) :
    ∃ t, eachSegmentPage piece vaddr len s = some t ∧ inv len t := by
  have pages := eachPiece_rule bound
    (fun k n s holds fits less positive => step k n s holds fits less (.inl positive))
  have inside : vaddr % PGSIZE < PGSIZE := mod_lt _ (by decide)
  unfold eachSegmentPage
  by_cases unaligned : vaddr % PGSIZE ≠ 0
  · rw [if_pos unaligned]
    dsimp only
    generalize taken : (if PGSIZE - vaddr % PGSIZE < len then PGSIZE - vaddr % PGSIZE else len) = n
    have most : n ≤ len ∧ vaddr % PGSIZE + n ≤ PGSIZE ∧
        (vaddr % PGSIZE + n = PGSIZE ∨ n = len) := by
      rw [← taken]
      split <;> omega
    obtain ⟨t, ran, next⟩ := step 0 n s start (by rw [add_zero]; omega) (by omega)
      (.inr ⟨rfl, unaligned⟩)
    rw [add_zero] at ran
    rw [zero_add] at next
    rw [ran, bind_some, add64_of_lt (by omega)]
    refine pages (len - n + 1) n t next ?_ most.1 (lt_succ_self _)
    rcases most.2.2 with whole | all
    · left
      unfold PGSIZE at *
      omega
    · exact .inr all
  · rw [if_neg unaligned]
    have whole := pages (len + 1) 0 s start (.inl (by rw [Nat.add_zero]; omega)) (Nat.zero_le _)
      (by omega)
    rwa [Nat.add_zero, Nat.sub_zero] at whole

end

section

variable {roots fixed : List Nat} {frames : Frames} {root va other bufBase buf : Nat}

theorem placeOf_add {n : Nat} (fits : va % PGSIZE + n < PGSIZE) :
    placeOf frames root (va + n) = placeOf frames root va + n := by
  have page : (va + n) / PGSIZE = va / PGSIZE := by
    unfold PGSIZE at *
    omega
  have offset : (va + n) % PGSIZE = va % PGSIZE + n := by
    unfold PGSIZE at *
    omega
  rw [placeOf, placeOf, frameAt, frameAt, entryAt_congr page, offset]
  unfold DMPA2VA
  omega

theorem placeOf_ne (space : Space roots fixed root frames) (here : UserMapped frames root va)
    (there : UserMapped frames root other) (differ : va ≠ other) :
    placeOf frames root va ≠ placeOf frames root other := by
  intro same
  unfold placeOf DMPA2VA at same
  have frame : frameAt frames root va = frameAt frames root other := by
    unfold PGSIZE at *
    omega
  have page := space.frames_differ here.user there.user here.mapped there.mapped frame
  rw [frame] at same
  have number := div_add_mod va PGSIZE
  have number' := div_add_mod other PGSIZE
  rw [page] at number
  omega

theorem placeOf_apart (space : Space roots fixed root frames) (apart : Apart fixed bufBase buf)
    (here : UserMapped frames root va) :
    Outside bufBase (placeOf frames root va) ∧ ∀ k < HEADER_LENGTH, placeOf frames root va ≠ buf + k :=
  apart.pages _ (space.frame_reached here.user here.mapped) (space.frame_free here.user here.mapped) _
    (mod_lt _ (by decide))

end

/-- The state while the segments are filled: the page tables and the file are as at the start. -/
structure Ready (bufBase : Nat) (g : Geometry) (fs : VFS) (vn : VNode) (f : Nat) (start s : Loading) :
  Prop where
  frames : s.frames = start.frames
  entrypoint : s.entrypoint = start.entrypoint
  volume : Volume bufBase g fs s.io.cache
  opened : Opened g fs s.io.cache vn f
  free : ∃ e < CACHEENTRIES, (s.io.cache.entry e).refCount = 0
  images : image s.io.cache g.disk = image start.io.cache g.disk

/-- `k` bytes from `vaddr` on hold what `byte` says, and outside the cache nothing else has changed. -/
structure Progress (bufBase : Nat) (g : Geometry) (fs : VFS) (vn : VNode) (f root : Nat)
  (start : Loading) (vaddr : Nat) (byte : Nat → UInt8) (k : Nat) (s : Loading) : Prop where
  ready : Ready bufBase g fs vn f start s
  bytes : ∀ j < k, s.memory (placeOf start.frames root (vaddr + j)) = byte j
  elsewhere : ∀ address, Outside bufBase address →
    (∀ j < k, address ≠ placeOf start.frames root (vaddr + j)) → s.memory address = start.memory address

section

variable {bufBase buf : Nat} {g : Geometry} {fs : VFS} {vn : VNode} {f root : Nat}
  {roots fixed : List Nat} {start s : Loading} {vaddr k n : Nat} {byte : Nat → UInt8}

theorem Ready.refl (volume : Volume bufBase g fs s.io.cache) (opened : Opened g fs s.io.cache vn f)
    (free : ∃ e < CACHEENTRIES, (s.io.cache.entry e).refCount = 0) : Ready bufBase g fs vn f s s :=
  ⟨rfl, rfl, volume, opened, free, rfl⟩

theorem Ready.trans {t : Loading} (first : Ready bufBase g fs vn f start s)
    (second : Ready bufBase g fs vn f s t) : Ready bufBase g fs vn f start t :=
  ⟨second.frames.trans first.frames, second.entrypoint.trans first.entrypoint, second.volume,
    second.opened, second.free, second.images.trans first.images⟩

theorem Progress.extend {t : Loading} (space : Space roots fixed root start.frames)
    (apart : Apart fixed bufBase buf)
    (progress : Progress bufBase g fs vn f root start vaddr byte k s)
    (ready : Ready bufBase g fs vn f s t) (fits : (vaddr + k) % PGSIZE + n ≤ PGSIZE)
    (mapped : ∀ j < k + n, UserMapped start.frames root (vaddr + j))
    (written : ∀ i < n, t.memory (placeOf start.frames root (vaddr + k) + i) = byte (k + i))
    (others : ∀ address, Outside bufBase address →
      (address < placeOf start.frames root (vaddr + k) ∨
        placeOf start.frames root (vaddr + k) + n ≤ address) → t.memory address = s.memory address) :
    Progress bufBase g fs vn f root start vaddr byte (k + n) t := by
  have place : ∀ i < n, placeOf start.frames root (vaddr + (k + i)) =
      placeOf start.frames root (vaddr + k) + i := by
    intro i inside
    rw [← add_assoc]
    exact placeOf_add (by omega)
  -- an address that is none of the new places lies outside their range
  have away : ∀ address, (∀ i < n, address ≠ placeOf start.frames root (vaddr + (k + i))) →
      address < placeOf start.frames root (vaddr + k) ∨
        placeOf start.frames root (vaddr + k) + n ≤ address := by
    intro address none
    by_contra between
    refine none (address - placeOf start.frames root (vaddr + k)) (by omega) ?_
    rw [place _ (by omega)]
    omega
  refine ⟨progress.ready.trans ready, ?_, ?_⟩
  · intro j less
    by_cases old : j < k
    · have outside := (placeOf_apart space apart (mapped j less)).1
      rw [others _ outside (away _ (fun i inside => placeOf_ne space (mapped j less)
        (mapped (k + i) (by omega)) (by omega)))]
      exact progress.bytes j old
    · have here := written (j - k) (by omega)
      rw [← place _ (by omega), Nat.add_sub_cancel' (by omega)] at here
      exact here
  · intro address out none
    rw [others address out (away address (fun i inside => none (k + i) (by omega)))]
    exact progress.elsewhere address out (fun j less => none j (by omega))

theorem Progress.header (space : Space roots fixed root start.frames) (apart : Apart fixed bufBase buf)
    (progress : Progress bufBase g fs vn f root start vaddr byte k s)
    (mapped : ∀ j < k, UserMapped start.frames root (vaddr + j)) :
    ∀ i < HEADER_LENGTH, s.memory (buf + i) = start.memory (buf + i) := by
  intro i inside
  refine progress.elsewhere _ (apart.header i inside) (fun j less => ?_)
  exact ((placeOf_apart space apart (mapped j less)).2 i inside).symm

theorem UserMapped.translate {frames : Frames} {va : Nat} (here : UserMapped frames root va)
    (space : Space roots fixed root frames) :
    ∃ pa, pMap_Translate root va frames = some pa ∧ DMPA2VA pa = placeOf frames root va :=
  ⟨_, space.translate here.user here.mapped, rfl⟩

theorem piece_outside {frames : Frames} {va : Nat} (space : Space roots fixed root frames)
    (apart : Apart fixed bufBase buf) (fits : va % PGSIZE + n ≤ PGSIZE)
    (mapped : ∀ i < n, UserMapped frames root (va + i)) :
    ∀ i < n, Outside bufBase (placeOf frames root va + i) := by
  intro i less
  rw [← placeOf_add (by omega)]
  exact (placeOf_apart space apart (mapped i less)).1

section

variable (ready : Ready bufBase g fs vn f start s)
include ready

theorem Ready.read {raddr off : Nat} (inside : off < bnSize (image start.io.cache g.disk) f)
    (within : off + n ≤ bnSize (image start.io.cache g.disk) f)
    (outside : ∀ i < n, Outside bufBase (raddr + i)) :
    ∃ io, o2fs_Read vn raddr off n s.io = some ((n : Int), io) ∧
      Ready bufBase g fs vn f s { s with io := io } ∧
      (∀ i < n, io.cache.memory (raddr + i) = fileByte (image start.io.cache g.disk) f (off + i)) ∧
      ∀ address, Outside bufBase address → (address < raddr ∨ raddr + n ≤ address) →
        io.cache.memory address = s.memory address := by
  rw [← ready.images] at inside within
  obtain ⟨io, ran, reading⟩ := o2fs_Read_whole ready.volume ready.opened ready.free inside within outside
  refine ⟨io, ran, ?_, ?_, reading.elsewhere⟩
  · exact ⟨rfl, rfl, reading.volume ready.volume, ready.opened.keep reading.steady.kept,
      reading.steady.free ready.free, reading.images g.disk⟩
  · intro i less
    rw [reading.delivered i less, ready.images]

theorem Ready.store {memory : Memory}
    (same : ∀ address, ¬ Outside bufBase address → memory address = s.memory address) :
    Ready bufBase g fs vn f s { s with io.cache.memory := memory } := by
  obtain ⟨volume, steady, images⟩ := ready.volume.store same
  exact ⟨rfl, rfl, volume, ready.opened.keep steady.kept, steady.free ready.free, images g.disk⟩

theorem Ready.zero {raddr : Nat} (outside : ∀ i < n, Outside bufBase (raddr + i)) :
    ∃ memory, memory = copyBytes s.memory raddr (fun _ => 0) 0 n ∧
      Ready bufBase g fs vn f s { s with io.cache.memory := memory } ∧
      (∀ i < n, memory (raddr + i) = 0) ∧
      ∀ address, (address < raddr ∨ raddr + n ≤ address) → memory address = s.memory address := by
  refine ⟨_, rfl, ready.store ?_, fun i less => copyBytes_offset _ _ _ _ _ _ less,
    fun address away => copyBytes_outside _ _ _ _ _ _ away⟩
  intro address cached
  refine copyBytes_outside _ _ _ _ _ _ ?_
  by_contra between
  have reached := outside (address - raddr) (by omega)
  rw [Nat.add_sub_cancel' (by omega)] at reached
  exact cached reached

end

theorem loadPiece_fills {offset : Nat} (space : Space roots fixed root start.frames)
    (apart : Apart fixed bufBase buf) (progress : Progress bufBase g fs vn f root start vaddr
      (fun j => fileByte (image start.io.cache g.disk) f (offset + j)) k s)
    (fits : (vaddr + k) % PGSIZE + n ≤ PGSIZE) (here : UserMapped start.frames root (vaddr + k))
    (mapped : ∀ j < k + n, UserMapped start.frames root (vaddr + j))
    (inside : offset + k < bnSize (image start.io.cache g.disk) f)
    (within : offset + k + n ≤ bnSize (image start.io.cache g.disk) f)
    (small : offset + k < word64) :
    ∃ t, loadPiece root vn offset (vaddr + k) k n s = some t ∧
      Progress bufBase g fs vn f root start vaddr
        (fun j => fileByte (image start.io.cache g.disk) f (offset + j)) (k + n) t := by
  have outside := piece_outside space apart fits (fun i less => by
    rw [add_assoc]
    exact mapped (k + i) (by omega))
  obtain ⟨pa, translated, place⟩ := here.translate space
  obtain ⟨io, ran, ready, delivered, elsewhere⟩ := progress.ready.read inside within outside
  refine ⟨{ s with io := io }, ?_, progress.extend space apart ready fits mapped ?_ elsewhere⟩
  · unfold loadPiece
    rw [progress.ready.frames, translated, bind_some, place, add64_of_lt small, ran]
    rfl
  · intro i less
    rw [← add_assoc]
    exact delivered i less

theorem zeroPiece_fills (space : Space roots fixed root start.frames)
    (apart : Apart fixed bufBase buf)
    (progress : Progress bufBase g fs vn f root start vaddr (fun _ => 0) k s)
    (fits : (vaddr + k) % PGSIZE + n ≤ PGSIZE) (here : UserMapped start.frames root (vaddr + k))
    (mapped : ∀ j < k + n, UserMapped start.frames root (vaddr + j)) :
    ∃ t, zeroPiece root (vaddr + k) k n s = some t ∧
      Progress bufBase g fs vn f root start vaddr (fun _ => 0) (k + n) t := by
  have outside := piece_outside space apart fits (fun i less => by
    rw [add_assoc]
    exact mapped (k + i) (by omega))
  obtain ⟨pa, translated, place⟩ := here.translate space
  obtain ⟨memory, result, ready, zeros, elsewhere⟩ := progress.ready.zero outside
  refine ⟨{ s with io.cache.memory := memory }, ?_,
    progress.extend space apart ready fits mapped zeros (fun address _ => elsewhere address)⟩
  unfold zeroPiece
  rw [progress.ready.frames, translated, map_some, place, result]

end

/-- What `Loader_Load` reads of a `PT_LOAD` header. -/
structure Segment where
  vaddr : Nat
  offset : Nat
  filesz : Nat
  memsz : Nat

def segmentOf (memory : Memory) (ph : Nat) : Segment where
  vaddr := p_vaddr memory ph
  offset := p_offset memory ph
  filesz := p_filesz memory ph
  memsz := p_memsz memory ph

namespace Segment

/-- The byte at `vaddr + j`: of the file, then zeros. -/
def byte (seg : Segment) (image : Memory) (f j : Nat) : UInt8 :=
  if j < seg.filesz then fileByte image f (seg.offset + j) else 0

def InPages (seg : Segment) (va : Nat) : Prop :=
  seg.vaddr / PGSIZE ≤ va / PGSIZE ∧ va / PGSIZE ≤ (seg.vaddr + seg.memsz - 1) / PGSIZE

def pages (seg : Segment) : Nat := pagesOf (seg.memsz + seg.vaddr % PGSIZE)

structure Loadable (seg : Segment) (size : Nat) : Prop where
  filled : seg.filesz ≤ seg.memsz
  nonempty : 1 ≤ seg.memsz
  small : seg.memsz < 2 ^ 31 - 4096
  below : seg.vaddr + seg.memsz ≤ MEM_USERSPACE_TOP
  stack : seg.vaddr + seg.memsz ≤ MEM_USERSPACE_STKBASE ∨
    MEM_USERSPACE_STKBASE + MEM_USERSPACE_STKLEN ≤ seg.vaddr
  offset : seg.offset < size
  inFile : seg.offset + seg.filesz ≤ size

def Disjoint (seg other : Segment) : Prop :=
  seg.vaddr + seg.memsz ≤ other.vaddr ∨ other.vaddr + other.memsz ≤ seg.vaddr

def Mapped (seg : Segment) (frames : Frames) (root : Nat) : Prop :=
  ∀ va, seg.InPages va → entryAt frames root va ≠ 0

variable {seg : Segment} {frames : Frames} {root size va : Nat}

section

variable (loadable : seg.Loadable size)
include loadable

theorem Loadable.user (inside : seg.InPages va) : va < MEM_USERSPACE_TOP := by
  have below := loadable.below
  have nonempty := loadable.nonempty
  have last := inside.2
  unfold MEM_USERSPACE_TOP PGSIZE at *
  omega

theorem Loadable.mapped (mapped : seg.Mapped frames root)
    (low : seg.vaddr ≤ va) (high : va < seg.vaddr + seg.memsz) : UserMapped frames root va := by
  have inside : seg.InPages va :=
    ⟨Nat.div_le_div_right low, Nat.div_le_div_right (by omega)⟩
  exact ⟨loadable.user inside, mapped va inside⟩

theorem Loadable.mapped_end (mapped : seg.Mapped frames root)
    (low : seg.vaddr ≤ va) (high : va ≤ seg.vaddr + seg.memsz) (unaligned : va % PGSIZE ≠ 0) :
    UserMapped frames root va := by
  have nonempty := loadable.nonempty
  have inside : seg.InPages va := by
    refine ⟨Nat.div_le_div_right low, ?_⟩
    unfold PGSIZE at *
    omega
  exact ⟨loadable.user inside, mapped va inside⟩

end

end Segment

section

variable {bufBase buf : Nat} {g : Geometry} {fs : VFS} {vn : VNode} {f root : Nat}
  {roots fixed : List Nat} {start s : Loading} {seg : Segment}

theorem Progress.nothing {vaddr : Nat} {byte : Nat → UInt8} (ready : Ready bufBase g fs vn f s s) :
    Progress bufBase g fs vn f root s vaddr byte 0 s :=
  ⟨ready, fun _ less => absurd less (Nat.not_lt_zero _), fun _ _ _ => rfl⟩

section

variable (space : Space roots fixed root s.frames) (apart : Apart fixed bufBase buf)
include space apart

theorem loaderLoadSegment_fills (ready : Ready bufBase g fs vn f s s)
    (loadable : seg.Loadable (bnSize (image s.io.cache g.disk) f))
    (mapped : seg.Mapped s.frames root) :
    ∃ t, loaderLoadSegment root vn seg.vaddr seg.offset seg.filesz s = some t ∧
      Progress bufBase g fs vn f root s seg.vaddr
        (fun j => fileByte (image s.io.cache g.disk) f (seg.offset + j)) seg.filesz t := by
  have filled := loadable.filled
  have nonempty := loadable.nonempty
  have below := loadable.below
  have offset := loadable.offset
  have inFile := loadable.inFile
  have top : MEM_USERSPACE_TOP < word64 := by decide
  have most := (ready.volume.sized f ready.opened.member).1
  have large : 64 * BLOCKSIZE < word64 := by decide
  refine eachSegmentPage_rule (by omega) ?_ (Progress.nothing ready)
  intro k n u progress fits less positive
  exact loadPiece_fills space apart progress fits
    (loadable.mapped mapped (by omega) (by omega))
    (fun j inside => loadable.mapped mapped (by omega) (by omega)) (by omega) (by omega) (by omega)

theorem loaderZeroSegment_fills {size : Nat} (ready : Ready bufBase g fs vn f s s)
    (loadable : seg.Loadable size) (mapped : seg.Mapped s.frames root) :
    ∃ t, loaderZeroSegment root (seg.vaddr + seg.filesz) (seg.memsz - seg.filesz) s = some t ∧
      Progress bufBase g fs vn f root s (seg.vaddr + seg.filesz) (fun _ => 0)
        (seg.memsz - seg.filesz) t := by
  have filled := loadable.filled
  have below := loadable.below
  have top : MEM_USERSPACE_TOP < word64 := by decide
  refine eachSegmentPage_rule (by omega) ?_ (Progress.nothing ready)
  intro k n u progress fits less positive
  refine zeroPiece_fills space apart progress fits ?_
    (fun j inside => loadable.mapped mapped (by omega) (by omega))
  rcases positive with some | ⟨rfl, unaligned⟩
  · exact loadable.mapped mapped (by omega) (by omega)
  · exact loadable.mapped_end mapped (by omega) (by omega) unaligned

theorem Progress.append {u t : Loading} (filled : seg.filesz ≤ seg.memsz)
    (mapped : ∀ j < seg.memsz, UserMapped s.frames root (seg.vaddr + j))
    (first : Progress bufBase g fs vn f root s seg.vaddr
      (fun j => fileByte (image s.io.cache g.disk) f (seg.offset + j)) seg.filesz u)
    (second : Progress bufBase g fs vn f root u (seg.vaddr + seg.filesz) (fun _ => 0)
      (seg.memsz - seg.filesz) t) :
    Progress bufBase g fs vn f root s seg.vaddr (seg.byte (image s.io.cache g.disk) f) seg.memsz t := by
  obtain ⟨later, zeros, others⟩ := second
  rw [first.ready.frames] at zeros others
  refine ⟨first.ready.trans later, ?_, ?_⟩
  · intro j less
    unfold Segment.byte
    split
    · rename_i inFile
      rw [others _ (placeOf_apart space apart (mapped j less)).1]
      · exact first.bytes j inFile
      · intro i few
        refine placeOf_ne space (mapped j less) ?_ (by omega)
        rw [add_assoc]
        exact mapped (seg.filesz + i) (by omega)
    · have zero := zeros (j - seg.filesz) (by omega)
      rwa [add_assoc, Nat.add_sub_cancel' (by omega)] at zero
  · intro address out none
    rw [others address out]
    · exact first.elsewhere address out (fun j less => none j (by omega))
    · intro i few
      rw [add_assoc]
      exact none (seg.filesz + i) (by omega)

end

theorem header_congr {left right : Memory} {ph : Nat}
    (same : ∀ o < PHDR_SIZE, left (ph + o) = right (ph + o)) :
    p_type left ph = p_type right ph ∧ segmentOf left ph = segmentOf right ph := by
  have word : ∀ o width, o + width ≤ PHDR_SIZE →
      loadLE left (ph + o) width = loadLE right (ph + o) width := by
    intro o width inside
    refine loadLE_congr _ _ _ _ (fun place low high => ?_)
    have byte := same (place - ph) (by omega)
    rwa [Nat.add_sub_cancel' (by omega)] at byte
  refine ⟨word 0 4 (by decide), ?_⟩
  unfold segmentOf p_vaddr p_offset p_filesz p_memsz
  rw [word 8 8 (by decide), word 16 8 (by decide), word 32 8 (by decide), word 40 8 (by decide)]

theorem loadHeader_eq (ph : Nat) (s : Loading) :
    loadHeader root vn ph s = if p_type s.memory ph = PT_LOAD then
      (loaderLoadSegment root vn (segmentOf s.memory ph).vaddr (segmentOf s.memory ph).offset
        (segmentOf s.memory ph).filesz s).bind (fun s =>
          if (segmentOf s.memory ph).filesz ≤ (segmentOf s.memory ph).memsz then
            loaderZeroSegment root (add64 (segmentOf s.memory ph).filesz (segmentOf s.memory ph).vaddr)
              ((segmentOf s.memory ph).memsz - (segmentOf s.memory ph).filesz) s
          else some s)
    else some s := rfl

theorem loadHeader_fills {ph : Nat} (space : Space roots fixed root s.frames)
    (apart : Apart fixed bufBase buf) (ready : Ready bufBase g fs vn f s s)
    (load : p_type s.memory ph = PT_LOAD) (which : segmentOf s.memory ph = seg)
    (inHeader : ∀ o < PHDR_SIZE, ∃ k < HEADER_LENGTH, ph + o = buf + k)
    (loadable : seg.Loadable (bnSize (image s.io.cache g.disk) f))
    (mapped : seg.Mapped s.frames root) :
    ∃ t, loadHeader root vn ph s = some t ∧ Progress bufBase g fs vn f root s seg.vaddr
      (seg.byte (image s.io.cache g.disk) f) seg.memsz t := by
  have filled := loadable.filled
  have below := loadable.below
  have top : MEM_USERSPACE_TOP < word64 := by decide
  have reached : ∀ j < seg.memsz, UserMapped s.frames root (seg.vaddr + j) :=
    fun j less => loadable.mapped mapped (by omega) (by omega)
  obtain ⟨u, loaded, first⟩ := loaderLoadSegment_fills space apart ready loadable mapped
  have kept := first.header space apart (fun j less => reached j (by omega))
  have same : segmentOf u.memory ph = seg := by
    rw [← which]
    refine (header_congr (fun o inside => ?_)).2
    obtain ⟨k, short, place⟩ := inHeader o inside
    rw [place]
    exact kept k short
  have frames := first.ready.frames
  obtain ⟨t, zeroed, second⟩ := loaderZeroSegment_fills (frames ▸ space) apart
    (Ready.refl first.ready.volume first.ready.opened first.ready.free) loadable (frames ▸ mapped)
  refine ⟨t, ?_, first.append space apart filled reached second⟩
  have last : add64 seg.filesz seg.vaddr = seg.vaddr + seg.filesz := by
    rw [add64_of_lt (by omega), add_comm]
  rw [loadHeader_eq, if_pos load, which, loaded, bind_some, same, if_pos filled, last]
  exact zeroed

end

end BoringOs.Loader
