import BoringOs.O2fsRounds
import BoringOs.O2fsGrow

/-! O2FS as a store of files: what `O2FS_Read` and `O2FS_Write` do to the bytes of every
file of a volume. -/

namespace BoringOs.O2fs

open ByteMemory BufCache Nat

/-! Data blocks: a copy into one of them, seen through the files. -/

variable {off buf length k h count bOff filesz : Nat}

section

variable {g : Geometry} {img : Memory} {f b : Nat}

theorem agreeAt_data (layout : Layout g img) (member : f ∈ g.files) (bound : b < 64)
    (nonzero : bnDirect img f b ≠ 0) (source : Memory) {bOff start count : Nat}
    (fits : bOff + count ≤ BLOCKSIZE) {offset : Nat} (kept : g.Reserved offset) :
    AgreeAt (copyBytes img (bnDirect img f b + bOff) source start count) img offset := by
  obtain ⟨aligned, unreserved⟩ := layout.pointer member bound nonzero
  refine agreeAt_copyBytes img source aligned (g.reserved_aligned kept) ?_ (by omega) (by omega)
  intro same
  rw [same] at kept
  exact unreserved kept

theorem fileByte_copy_apart (layout : Layout g img) (member : f ∈ g.files) (bound : b < 64)
    (nonzero : bnDirect img f b ≠ 0) (source : Memory) {bOff start count : Nat}
    (fits : bOff + count ≤ BLOCKSIZE) {h i : Nat} (other : h ∈ g.files) (inside : i < 64 * BLOCKSIZE)
    (present : bnDirect img h (i / BLOCKSIZE) ≠ 0)
    (apart : h = f → i < b * BLOCKSIZE + bOff ∨ b * BLOCKSIZE + bOff + count ≤ i) :
    fileByte (copyBytes img (bnDirect img f b + bOff) source start count) h i =
      fileByte img h i := by
  have slot : i / BLOCKSIZE < 64 := by
    unfold BLOCKSIZE at *
    omega
  have index := blockIndex_lt i
  have number := div_add_mod' i BLOCKSIZE
  rw [fileByte, fileByte, bnDirect_agree
    (agreeAt_data layout member bound nonzero source fits (.file h other)) slot]
  apply copyBytes_outside
  by_cases same : bnDirect img h (i / BLOCKSIZE) = bnDirect img f b
  · obtain ⟨sameFile, sameIndex⟩ :=
      layout.pointer_unique member other bound slot nonzero same
    have away := apart sameFile
    rw [sameIndex] at number
    omega
  · have blocks := aligned_apart (layout.pointer other slot present).1
      (layout.pointer member bound nonzero).1 same
    omega

theorem fileByte_copy_inside (layout : Layout g img) (member : f ∈ g.files) (bound : b < 64)
    (nonzero : bnDirect img f b ≠ 0) (source : Memory) {bOff start count : Nat}
    (fits : bOff + count ≤ BLOCKSIZE) (inside : k < count) :
    fileByte (copyBytes img (bnDirect img f b + bOff) source start count) f
      (b * BLOCKSIZE + bOff + k) = source (start + k) := by
  have quotient : (b * BLOCKSIZE + bOff + k) / BLOCKSIZE = b := by
    unfold BLOCKSIZE at *
    omega
  have remainder : (b * BLOCKSIZE + bOff + k) % BLOCKSIZE = bOff + k := by
    unfold BLOCKSIZE at *
    omega
  rw [fileByte, quotient, remainder, bnDirect_agree
    (agreeAt_data layout member bound nonzero source fits (.file f member)) bound, ← add_assoc]
  exact copyBytes_offset _ _ _ _ _ _ inside

theorem fileByte_copy (layout : Layout g img) (member : f ∈ g.files) {pos : Nat}
    (bound : pos < 64 * BLOCKSIZE) (nonzero : bnDirect img f (pos / BLOCKSIZE) ≠ 0) (source : Memory)
    {start count : Nat} (fits : pos % BLOCKSIZE + count ≤ BLOCKSIZE) {h i : Nat} (other : h ∈ g.files)
    (inside : i < 64 * BLOCKSIZE) (present : bnDirect img h (i / BLOCKSIZE) ≠ 0) :
    fileByte (copyBytes img (bnDirect img f (pos / BLOCKSIZE) + pos % BLOCKSIZE) source start count) h i =
      if h = f ∧ pos ≤ i ∧ i < pos + count then source (start + (i - pos)) else fileByte img h i := by
  have slot : pos / BLOCKSIZE < 64 := by
    unfold BLOCKSIZE at *
    omega
  have number := div_add_mod' pos BLOCKSIZE
  by_cases covered : h = f ∧ pos ≤ i ∧ i < pos + count
  · obtain ⟨rfl, low, high⟩ := covered
    have place : i = pos / BLOCKSIZE * BLOCKSIZE + pos % BLOCKSIZE + (i - pos) := by omega
    rw [if_pos ⟨rfl, low, high⟩]
    conv_lhs => rw [place]
    exact fileByte_copy_inside layout member slot nonzero source fits (by omega)
  · rw [if_neg covered]
    refine fileByte_copy_apart layout member slot nonzero source fits other inside present ?_
    intro same
    omega

end

section

variable {bufBase : Nat} {g : Geometry} {fs : VFS} {s : BufState} {vn : VNode} {f : Nat}

theorem Volume.keep {t : BufState} (volume : Volume bufBase g fs s)
    (coherent : Coherent bufBase everyBlock t) (steady : Steady s t)
    (reads : ∀ n, t.readStatus n = 0) (writes : ∀ n, t.writeStatus n = 0)
    (agree : ∀ offset, g.Reserved offset → AgreeAt (image t g.disk) (image s g.disk) offset) :
    Volume bufBase g fs t := by
  refine ⟨coherent, volume.mounted.keep steady.kept, reads, writes, ?_, volume.layout.agree agree,
    ?_⟩
  · rw [sbBlockSize, loadLE_agree (agree 0 .superblock) (by unfold BLOCKSIZE; omega)]
    exact volume.blockSize
  · exact volume.sized.agree (fun h member => agree h (.file h member))

theorem Volume.store (volume : Volume bufBase g fs s) {memory : Memory}
    (same : ∀ address, ¬ Outside bufBase address → memory address = s.memory address) :
    Volume bufBase g fs (withMemory s memory) ∧ Steady s (withMemory s memory) ∧
      ∀ d, image (withMemory s memory) d = image s d := by
  obtain ⟨coherent, images⟩ := outside_image volume.coherent memory same
  have steady : Steady s (withMemory s memory) := Steady.of_entry rfl
  refine ⟨volume.keep coherent steady volume.reads volume.writes ?_, steady, images⟩
  intro _ _ _ _
  rw [images]

structure Writing (bufBase : Nat) (g : Geometry) (start : BufState) (f buf off k : Nat)
  (s : BufState) : Prop where
  coherent : Coherent bufBase everyBlock s
  steady : Steady start s
  reads : ∀ n, s.readStatus n = 0
  writes : ∀ n, s.writeStatus n = 0
  outside : ∀ address, Outside bufBase address → s.memory address = start.memory address
  disks : ∀ d, d ≠ g.disk → image s d = image start d
  reserved : ∀ offset, g.Reserved offset → AgreeAt (image s g.disk) (image start g.disk) offset
  written : ∀ j < k, fileByte (image s g.disk) f (off + j) = start.memory (buf + j)
  unwritten : ∀ h ∈ g.files, ∀ i < 64 * BLOCKSIZE, bnDirect (image start g.disk) h (i / BLOCKSIZE) ≠ 0 →
    (h = f → i < off ∨ off + k ≤ i) →
      fileByte (image s g.disk) h i = fileByte (image start g.disk) h i

theorem Writing.volume {start : BufState} (volume : Volume bufBase g fs start)
    (writing : Writing bufBase g start f buf off k s) : Volume bufBase g fs s :=
  volume.keep writing.coherent writing.steady writing.reads writing.writes writing.reserved

theorem Writing.pointer {start : BufState} {buf off k h i : Nat}
    (writing : Writing bufBase g start f buf off k s) (member : h ∈ g.files) (inside : i < 64 * BLOCKSIZE) :
    bnDirect (image s g.disk) h (i / BLOCKSIZE) = bnDirect (image start g.disk) h (i / BLOCKSIZE) := by
  refine bnDirect_agree (writing.reserved h (.file h member)) ?_
  unfold BLOCKSIZE at *
  omega

theorem Volume.resolve (volume : Volume bufBase g fs s) (opened : Opened g fs s vn f) {b : Nat}
    (bound : b < 64) (free : ∃ e < CACHEENTRIES, (s.entry e).refCount = 0) :
    ∃ e t, o2fsResolveBuf vn b s = (0, some e, t) ∧
      Takes s t e g.disk (bnDirect (image s g.disk) f b) ∧ Coherent bufBase everyBlock t ∧
      (∀ d o, everyBlock d o → ∀ index < BLOCKSIZE, content t d o index = content s d o index) ∧
      ∀ d, image t d = image s d := by
  have aligned := volume.layout.pointer_aligned opened.member bound
  obtain ⟨e, t, result, takes, coherent, same⟩ :=
    bufCache_Read_available volume.coherent g.disk aligned (volume.reads 0) free
  refine ⟨e, t, ?_, takes, coherent, same, ?_⟩
  · rw [o2fsResolveBuf, opened.direct volume.coherent.rep bound, opened.disk]
    exact result
  · intro d
    funext address
    exact image_congr (same _ _ trivial _ (blockIndex_lt address))

theorem Writing.round {start : BufState} {io : IoState}
    (volume : Volume bufBase g fs start) (opened : Opened g fs start vn f)
    (covered : off + length ≤ bnSize (image start g.disk) f)
    (free : ∃ e < CACHEENTRIES, (start.entry e).refCount = 0) (source : OutsideAll bufBase buf length)
    (writing : Writing bufBase g start f buf off k io.cache) (more : k < length) :
    roundOf writeBlock vn BLOCKSIZE io (buf + k) ((off + k) % word64) (length - k)
      (fun next => Writing bufBase g start f buf off
        (k + chunkLength BLOCKSIZE ((off + k) % word64) (length - k)) next.cache)
      (fun _ _ => False) := by
  have current := writing.volume volume
  have node := opened.keep writing.steady.kept
  have most := (volume.sized f opened.member).1
  have small : off + length < word64 := by
    unfold BLOCKSIZE word64 at *
    omega
  have offset : (off + k) % word64 = off + k := mod_eq_of_lt (by omega)
  have chunk : chunkLength BLOCKSIZE (off + k) (length - k) =
      min (BLOCKSIZE - (off + k) % BLOCKSIZE) (length - k) := chunkLength_eq (by omega)
  have index := blockIndex_lt (off + k)
  have bound : off + k < 64 * BLOCKSIZE := by omega
  have slot : (off + k) / BLOCKSIZE < 64 := by
    unfold BLOCKSIZE at *
    omega
  have allocated : ∀ j < length, bnDirect (image io.cache g.disk) f ((off + j) / BLOCKSIZE) ≠ 0 := by
    intro j less
    rw [writing.pointer opened.member (by omega)]
    have spot := div_add_mod' (off + j) BLOCKSIZE
    exact (volume.sized f opened.member).2 _ (by omega)
  have present := allocated k more
  obtain ⟨e, t, resolved, takes, coherent, _, images⟩ :=
    current.resolve node slot (writing.steady.free free)
  rw [offset, chunk]
  generalize counted : min (BLOCKSIZE - (off + k) % BLOCKSIZE) (length - k) = n
  have fits : (off + k) % BLOCKSIZE + n ≤ BLOCKSIZE := by omega
  have statuses : ∀ m, t.writeStatus m = 0 := by
    intro m
    rw [takes.writeStatus]
    exact writing.writes m
  obtain ⟨result, after, visited, own, others, outside⟩ := writeBlock_cache takes coherent
    (statuses 0) (buf + k) fits io.accesses
  right
  refine ⟨by rw [resolved], e, by rw [resolved], ?_⟩
  rw [resolved, chunk, counted]
  have layout := current.layout
  rw [images] at own
  constructor
  · exact after
  · exact writing.steady.trans visited
  · intro m
    rw [result]
    exact takes.readStatus writing.reads m
  · intro m
    rw [result]
    exact statuses (m + 1)
  · intro address out
    rw [outside address out, takes.outside current.coherent.rep out]
    exact writing.outside address out
  · intro d other
    rw [others d other, images d]
    exact writing.disks d other
  · intro o kept
    rw [own]
    exact (agreeAt_data layout opened.member slot present _ fits kept).trans
      (writing.reserved o kept)
  · intro j less
    rw [own, fileByte_copy layout opened.member bound present _ fits opened.member (by omega)
      (allocated j (by omega))]
    split
    case isTrue covered =>
      rw [takes.outside current.coherent.rep (source _ (by omega) (by omega)),
        writing.outside _ (source _ (by omega) (by omega))]
      congr 1
      omega
    case isFalse earlier => exact writing.written j (by omega)
  · intro h other i below there away
    rw [own, fileByte_copy layout opened.member bound present _ fits other below
      (by rwa [writing.pointer other below]), if_neg]
    · exact writing.unwritten h other i below there (by omega)
    · omega

theorem Volume.writing (volume : Volume bufBase g fs s) (buf off : Nat) :
    Writing bufBase g s f buf off 0 s where
  coherent := volume.coherent
  steady := .refl s
  reads := volume.reads
  writes := volume.writes
  outside _ _ := rfl
  disks _ _ := rfl
  reserved _ _ _ _ := rfl
  written j less := by omega
  unwritten _ _ _ _ _ _ := rfl

theorem writeLoop_stores (io : IoState)
    (volume : Volume bufBase g fs io.cache) (opened : Opened g fs io.cache vn f)
    (positive : 0 < length) (covered : off + length ≤ bnSize (image io.cache g.disk) f)
    (free : ∃ e < CACHEENTRIES, (io.cache.entry e).refCount = 0)
    (source : OutsideAll bufBase buf length) :
    ∃ t, blockLoop writeBlock vn (length + 1) io buf off length 0 = some ((length : Int), t) ∧
      Writing bufBase g io.cache f buf off length t.cache := by
  have most := (volume.sized f opened.member).1
  have small : off + length ≤ 64 * BLOCKSIZE := by omega
  have offBound : off < word64 := by
    unfold BLOCKSIZE word64 at *
    omega
  obtain ⟨result, t, ran, ⟨total, writing⟩ | impossible⟩ := blockLoop_rule
    (fun k s => Writing bufBase g io.cache f buf off k s.cache) (fun _ _ => False)
    blockSize_pos offBound
    (fun _ _ writing => (writing.volume volume).readsBlockSize opened.vfs)
    (by
      intro k s writing more
      exact writing.round volume opened covered free source (by omega))
    io (volume.writing buf off)
  · refine ⟨t, ?_, writing⟩
    rw [ran, total, toInt32_of_lt]
    unfold BLOCKSIZE at *
    omega
  · exact impossible.elim

theorem Resized.fileByte {after : Memory} (layout : Layout g (image s g.disk))
    (sized : Sized g (image s g.disk)) (resized : Resized g f filesz (image s g.disk) after)
    {h i : Nat} (member : h ∈ g.files) (below : i < bnSize (image s g.disk) h) :
    O2fs.fileByte after h i = O2fs.fileByte (image s g.disk) h i := by
  obtain ⟨most, present⟩ := sized h member
  have slot : i / BLOCKSIZE < 64 := by
    unfold BLOCKSIZE at *
    omega
  have number := div_add_mod' i BLOCKSIZE
  have nonzero := present (i / BLOCKSIZE) (by omega)
  have pointer : bnDirect after h (i / BLOCKSIZE) =
      bnDirect (image s g.disk) h (i / BLOCKSIZE) := by
    by_cases same : h = f
    · subst h
      exact resized.pointers _ slot nonzero
    · exact bnDirect_agree (resized.files h member same) slot
  obtain ⟨aligned, unreserved⟩ := layout.pointer member slot nonzero
  rw [O2fs.fileByte, O2fs.fileByte, pointer]
  exact resized.data _ aligned unreserved _ (blockIndex_lt i)

structure Stored (g : Geometry) (f buf off length : Nat) (s t : BufState) : Prop where
  size : bnSize (image t g.disk) f = max (bnSize (image s g.disk) f) (off + length)
  written : ∀ j < length, fileByte (image t g.disk) f (off + j) = s.memory (buf + j)
  kept : ∀ i < bnSize (image s g.disk) f, i < off ∨ off + length ≤ i →
    fileByte (image t g.disk) f i = fileByte (image s g.disk) f i
  otherSizes : ∀ h ∈ g.files, h ≠ f → bnSize (image t g.disk) h = bnSize (image s g.disk) h
  otherPointers : ∀ h ∈ g.files, h ≠ f → ∀ i < 64,
    bnDirect (image t g.disk) h i = bnDirect (image s g.disk) h i
  otherBytes : ∀ h ∈ g.files, h ≠ f → ∀ i < bnSize (image s g.disk) h,
    fileByte (image t g.disk) h i = fileByte (image s g.disk) h i

theorem Volume.present (volume : Volume bufBase g fs s) {h i : Nat} (member : h ∈ g.files)
    (below : i < bnSize (image s g.disk) h) :
    i < 64 * BLOCKSIZE ∧ bnDirect (image s g.disk) h (i / BLOCKSIZE) ≠ 0 := by
  obtain ⟨most, present⟩ := volume.sized h member
  have number := div_add_mod' i BLOCKSIZE
  exact ⟨by omega, present _ (by omega)⟩

theorem Writing.stored {m t : BufState}
    (volume : Volume bufBase g fs s) (middle : Volume bufBase g fs m) (member : f ∈ g.files)
    (resized : Resized g f filesz (image s g.disk) (image m g.disk))
    (larger : filesz = max (bnSize (image s g.disk) f) (off + length))
    (source : ∀ j < length, m.memory (buf + j) = s.memory (buf + j))
    (writing : Writing bufBase g m f buf off length t) : Stored g f buf off length s t := by
  have old : ∀ h ∈ g.files, ∀ i < bnSize (image s g.disk) h, (h = f → i < off ∨ off + length ≤ i) →
      fileByte (image t g.disk) h i = fileByte (image s g.disk) h i := by
    intro h inside i below away
    have grown : i < bnSize (image m g.disk) h := by
      by_cases same : h = f
      · rw [same, resized.size, larger]
        rw [same] at below
        omega
      · rw [bnSize_agree (resized.files h inside same)]
        exact below
    obtain ⟨bound, present⟩ := middle.present inside grown
    rw [writing.unwritten h inside i bound present away]
    exact resized.fileByte volume.layout volume.sized inside below
  constructor
  · rw [bnSize_agree (writing.reserved f (.file f member)), resized.size, larger]
  · intro j less
    rw [writing.written j less]
    exact source j less
  · intro i below away
    exact old f member i below (fun _ => away)
  · intro h inside other
    rw [bnSize_agree (writing.reserved h (.file h inside)),
      bnSize_agree (resized.files h inside other)]
  · intro h inside other i bound
    rw [bnDirect_agree (writing.reserved h (.file h inside)) bound,
      bnDirect_agree (resized.files h inside other) bound]
  · intro h inside other i below
    exact old h inside i below (fun same => absurd same other)

theorem Resized.refl {img : Memory} {size : Nat} (current : bnSize img f = size) :
    Resized g f size img img where
  files _ _ _ _ _ := rfl
  size := current
  pointers _ _ _ := rfl
  data _ _ _ _ _ := rfl

theorem Volume.blockSize_ne (volume : Volume bufBase g fs s) (opened : Opened g fs s vn f) :
    sbBlockSize s.memory (bufferOf s vn.vfs.fsptr) ≠ 0 := by
  rw [volume.readsBlockSize opened.vfs]
  decide

theorem add64_sum (bound : off + length ≤ 64 * BLOCKSIZE) : add64 off length = off + length :=
  add64_of_lt (by
    unfold BLOCKSIZE word64 at *
    omega)

theorem o2fs_Write_grows {io : IoState}
    (volume : Volume bufBase g fs io.cache) (opened : Opened g fs io.cache vn f)
    (positive : 1 ≤ length) (bound : off + length ≤ 64 * BLOCKSIZE)
    (larger : bnSize (image io.cache g.disk) f < off + length)
    (free : ∃ e < CACHEENTRIES, (io.cache.entry e).refCount = 0)
    (source : OutsideAll bufBase buf length)
    {m : BufState} (ran : o2fsGrowVNode vn (off + length) io.cache = some (0, m))
    (grown : GrownTo bufBase g fs f (off + length) io.cache m) :
    ∃ t, o2fs_Write vn buf off length io = some ((length : Int), t) ∧
      Writing bufBase g m f buf off length t.cache := by
  have steady : Steady io.cache m := .of_entry grown.entries
  obtain ⟨t, loop, writing⟩ := writeLoop_stores { io with cache := m } grown.volume
    (opened.keep steady.kept) positive (by rw [grown.resized.size]) (steady.free free) source
  refine ⟨t, ?_, writing⟩
  rw [o2fs_Write, if_neg (volume.blockSize_ne opened), add64_sum bound,
    opened.size volume.coherent.rep, if_pos larger, ran]
  simp only [Int.lt_irrefl, ↓reduceIte]
  exact loop

theorem o2fs_Write_stores {io : IoState}
    (volume : Volume bufBase g fs io.cache) (opened : Opened g fs io.cache vn f)
    (positive : 1 ≤ length) (bound : off + length ≤ 64 * BLOCKSIZE)
    (free : ∃ e < CACHEENTRIES, (io.cache.entry e).refCount = 0)
    (room : (emptySlots (image io.cache g.disk) f
      (blockCeil (bnSize (image io.cache g.disk) f)) (blockCeil (off + length))).card ≤
        (freeBlocks g (image io.cache g.disk)).card)
    (source : OutsideAll bufBase buf length) :
    ∃ t, o2fs_Write vn buf off length io = some ((length : Int), t) ∧
      Volume bufBase g fs t.cache ∧ Steady io.cache t.cache ∧
      (∀ address, Outside bufBase address → t.cache.memory address = io.cache.memory address) ∧
      Stored g f buf off length io.cache t.cache := by
  by_cases grows : bnSize (image io.cache g.disk) f < off + length
  · obtain ⟨m, ran, grown⟩ := o2fsGrowVNode_grows volume opened bound grows room
    obtain ⟨t, wrote, writing⟩ :=
      o2fs_Write_grows volume opened positive bound grows free source ran grown
    refine ⟨t, wrote, writing.volume grown.volume,
      (Steady.of_entry grown.entries).trans writing.steady, ?_, ?_⟩
    · intro address out
      exact (writing.outside address out).trans (grown.outside address out)
    · refine Writing.stored volume grown.volume opened.member grown.resized (by omega) ?_ writing
      intro j less
      exact grown.outside _ (source _ (by omega) (by omega))
  · have covered : off + length ≤ bnSize (image io.cache g.disk) f := Nat.le_of_not_lt grows
    obtain ⟨t, ran, writing⟩ := writeLoop_stores io volume opened positive covered free source
    refine ⟨t, ?_, writing.volume volume, writing.steady, writing.outside, ?_⟩
    · rw [o2fs_Write, if_neg (volume.blockSize_ne opened), add64_sum bound,
        opened.size volume.coherent.rep, if_neg grows]
      exact ran
    · exact Writing.stored volume volume opened.member (.refl rfl) (by omega) (fun _ _ => rfl) writing

end

section

variable {bufBase : Nat} {g : Geometry} {fs : VFS} {s : BufState} {vn : VNode} {f : Nat}

structure Reading (bufBase : Nat) (g : Geometry) (start : BufState) (f buf off k : Nat)
  (s : BufState) : Prop where
  coherent : Coherent bufBase everyBlock s
  steady : Steady start s
  reads : ∀ n, s.readStatus n = 0
  writes : ∀ n, s.writeStatus n = 0
  images : ∀ d, image s d = image start d
  delivered : ∀ j < k, s.memory (buf + j) = fileByte (image start g.disk) f (off + j)
  elsewhere : ∀ address, Outside bufBase address → address < buf ∨ buf + k ≤ address →
    s.memory address = start.memory address

theorem Reading.volume {start : BufState} (volume : Volume bufBase g fs start)
    (reading : Reading bufBase g start f buf off k s) : Volume bufBase g fs s :=
  volume.keep reading.coherent reading.steady reading.reads reading.writes
    (fun _ _ _ _ => by rw [reading.images])

theorem Reading.step {start : BufState} {io : IoState} {buf off k n : Nat}
    (volume : Volume bufBase g fs start) (opened : Opened g fs start vn f)
    (free : ∃ e < CACHEENTRIES, (start.entry e).refCount = 0)
    (slot : (off + k) / BLOCKSIZE < 64) (fits : (off + k) % BLOCKSIZE + n ≤ BLOCKSIZE)
    (target : OutsideAll bufBase buf (k + n))
    (reading : Reading bufBase g start f buf off k io.cache) :
    ∃ e cache, o2fsResolveBuf vn ((off + k) / BLOCKSIZE) io.cache = (0, some e, cache) ∧
      Reading bufBase g start f buf off (k + n)
        (readBlock { io with cache := cache } e (buf + k) ((off + k) % BLOCKSIZE) n).cache := by
  have current := reading.volume volume
  have node := opened.keep reading.steady.kept
  obtain ⟨e, t, resolved, takes, coherent, same, images⟩ :=
    current.resolve node slot (reading.steady.free free)
  obtain ⟨after, visited, unchanged, memory⟩ := readBlock_cache current.coherent takes coherent same
    (buf + k) ((off + k) % BLOCKSIZE) n
    (fun address low high => target address (by omega) (by omega)) io.accesses
  refine ⟨e, t, resolved, ?_⟩
  constructor
  · exact after
  · exact reading.steady.trans visited
  · exact takes.readStatus reading.reads
  · intro m
    have statuses := congrFun takes.writeStatus m
    exact statuses.trans (reading.writes m)
  · intro d
    rw [unchanged d, images d]
    exact reading.images d
  · intro j less
    rw [memory]
    by_cases earlier : j < k
    · rw [copyBytes_outside _ _ _ _ _ _ (by omega),
        takes.outside current.coherent.rep (target _ (by omega) (by omega))]
      exact reading.delivered j earlier
    · have place : buf + j = buf + k + (j - k) := by omega
      have quotient : (off + j) / BLOCKSIZE = (off + k) / BLOCKSIZE := by
        unfold BLOCKSIZE at *
        omega
      have remainder : (off + j) % BLOCKSIZE = (off + k) % BLOCKSIZE + (j - k) := by
        unfold BLOCKSIZE at *
        omega
      have aligned := current.layout.pointer_aligned opened.member slot
      rw [place, copyBytes_offset _ _ _ _ _ _ (by omega), add_assoc,
        ← image_key coherent.rep takes.key aligned (by omega), images, reading.images, fileByte,
        quotient, remainder]
  · intro address out away
    rw [memory, copyBytes_outside _ _ _ _ _ _ (by omega),
      takes.outside current.coherent.rep out]
    exact reading.elsewhere address out (by omega)

theorem Reading.round {start : BufState} {io : IoState}
    (volume : Volume bufBase g fs start) (opened : Opened g fs start vn f)
    (inside : off < 64 * BLOCKSIZE) (small : off + length < word64)
    (covered : 0 < length → off + length ≤ bnSize (image start g.disk) f)
    (free : ∃ e < CACHEENTRIES, (start.entry e).refCount = 0) (target : OutsideAll bufBase buf length)
    (reading : Reading bufBase g start f buf off k io.cache)
    (more : k < length ∨ k = 0 ∧ length = 0) :
    roundOf readBlock vn BLOCKSIZE io (buf + k) ((off + k) % word64) (length - k)
      (fun next => Reading bufBase g start f buf off
        (k + chunkLength BLOCKSIZE ((off + k) % word64) (length - k)) next.cache)
      (fun _ _ => False) := by
  have most := (volume.sized f opened.member).1
  have offset : (off + k) % word64 = off + k := mod_eq_of_lt (by omega)
  have chunk : chunkLength BLOCKSIZE (off + k) (length - k) =
      min (BLOCKSIZE - (off + k) % BLOCKSIZE) (length - k) := chunkLength_eq (by omega)
  have index := blockIndex_lt (off + k)
  have slot : (off + k) / BLOCKSIZE < 64 := by
    apply Nat.div_lt_of_lt_mul
    rw [mul_comm]
    omega
  rw [offset, chunk]
  generalize counted : min (BLOCKSIZE - (off + k) % BLOCKSIZE) (length - k) = n
  obtain ⟨e, t, resolved, delivered⟩ := reading.step volume opened free slot
    (show (off + k) % BLOCKSIZE + n ≤ BLOCKSIZE by omega)
    (fun address low high => target address low (by omega))
  right
  refine ⟨by rw [resolved], e, by rw [resolved], ?_⟩
  rw [resolved, chunk, counted]
  exact delivered

theorem o2fs_Read_reads {io : IoState}
    (volume : Volume bufBase g fs io.cache) (opened : Opened g fs io.cache vn f)
    (inside : off < 64 * BLOCKSIZE) (small : off + length < word64)
    (free : ∃ e < CACHEENTRIES, (io.cache.entry e).refCount = 0)
    (target : OutsideAll bufBase buf length) :
    let count := min length (bnSize (image io.cache g.disk) f - off)
    ∃ t, o2fs_Read vn buf off length io = some ((count : Int), t) ∧
      Reading bufBase g io.cache f buf off count t.cache := by
  intro count
  have blockSize := volume.readsBlockSize opened.vfs
  have size := opened.size volume.coherent.rep
  have most := (volume.sized f opened.member).1
  have start : ∀ buf off, Reading bufBase g io.cache f buf off 0 io.cache := by
    intro buf off
    exact ⟨volume.coherent, .refl _, volume.reads, volume.writes, fun _ => rfl,
      fun j less => absurd less (by omega), fun _ _ _ => rfl⟩
  unfold o2fs_Read
  rw [size]
  simp only [blockSize]
  rw [if_neg (by decide)]
  by_cases beyond : off > bnSize (image io.cache g.disk) f
  · have none : count = 0 := by omega
    rw [if_pos beyond, none]
    exact ⟨io, rfl, start buf off⟩
  · have requested : readLength (bnSize (image io.cache g.disk) f) off length = count := by
      rw [readLength, add64_of_lt small]
      split
      · omega
      · omega
    rw [if_neg beyond, requested]
    obtain ⟨result, t, ran, ⟨total, reading⟩ | impossible⟩ := blockLoop_rule
      (fun k s => Reading bufBase g io.cache f buf off k s.cache) (fun _ _ => False)
      blockSize_pos (show off < word64 by omega)
      (fun _ _ reading => (reading.volume volume).readsBlockSize opened.vfs)
      (by
        intro k s reading more
        exact reading.round volume opened inside (show off + count < word64 by omega)
          (fun _ => by omega) free (fun address low high => target address low (by omega)) more)
      io (start buf off)
    · refine ⟨t, ?_, reading⟩
      rw [ran, total, toInt32_of_lt]
      unfold BLOCKSIZE at *
      omega
    · exact impossible.elim

theorem o2fs_Read_whole {io : IoState}
    (volume : Volume bufBase g fs io.cache) (opened : Opened g fs io.cache vn f)
    (free : ∃ e < CACHEENTRIES, (io.cache.entry e).refCount = 0)
    (inside : off < bnSize (image io.cache g.disk) f)
    (within : off + length ≤ bnSize (image io.cache g.disk) f)
    (target : ∀ i < length, Outside bufBase (buf + i)) :
    ∃ t, o2fs_Read vn buf off length io = some ((length : Int), t) ∧
      Reading bufBase g io.cache f buf off length t.cache := by
  have most := (volume.sized f opened.member).1
  have large : 64 * BLOCKSIZE < word64 := by decide
  have outside : OutsideAll bufBase buf length := by
    intro address low high
    have reached := target (address - buf) (by omega)
    rwa [Nat.add_sub_cancel' low] at reached
  have count : min length (bnSize (image io.cache g.disk) f - off) = length := by omega
  have read := o2fs_Read_reads volume opened (show off < 64 * BLOCKSIZE by omega)
    (show off + length < word64 by omega) free outside
  dsimp only at read
  rwa [count] at read

end

end BoringOs.O2fs
