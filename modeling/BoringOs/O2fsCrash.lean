import BoringOs.O2fsRun

/-! The disk of an O2FS volume at every moment of a sequence of `O2FS_Write` calls. The cache runs
ahead of the disk: a block node on disk may lack pointers that its buffer has, but the bitmap on
disk is never behind. -/

namespace BoringOs.O2fs

open ByteMemory BufCache Ownership

def applyWrite (disks : DiskId → Memory) (write : DiskWrite) : DiskId → Memory :=
  Function.update disks write.disk
    (copyBytes (disks write.disk) write.offset write.data 0 BLOCKSIZE)

variable {i filesz off length block offset first buf : Nat} {e : EntryId} {io : IoState} {img changed : Memory}

/-- No block node refers to a block whose bit is clear, and no block is referred to twice. -/
structure Consistent (g : Geometry) (img : Memory) : Prop where
  marked : ∀ f ∈ g.files, ∀ i < 64, bnDirect img f i ≠ 0 → bnDirect img f i ∈ used g img
  distinct : ∀ f ∈ g.files, ∀ h ∈ g.files, ∀ i < 64, ∀ j < 64, bnDirect img f i ≠ 0 →
    bnDirect img h j = bnDirect img f i → h = f ∧ j = i

theorem Layout.consistent {g : Geometry} (layout : Layout g img) :
    Consistent g img where
  marked _ member _ bound nonzero := layout.recorded _ _ (slots_eq member bound nonzero)
  distinct _ member _ other _ bound _ inside nonzero same :=
    layout.pointer_unique member other bound inside nonzero same

structure Synced (g : Geometry) (disk img : Memory) : Prop where
  bitmap : ∀ i < g.bitmapBlocks, AgreeAt disk img (g.bitmapOffset + i * BLOCKSIZE)
  pointers : ∀ f ∈ g.files, ∀ i < 64, bnDirect disk f i = 0 ∨ bnDirect disk f i = bnDirect img f i

section

variable {g : Geometry} {disk img : Memory}

theorem Synced.of_agree (agree : ∀ offset, g.Reserved offset → AgreeAt disk img offset) :
    Synced g disk img where
  bitmap i bound := agree _ (.bitmap i bound)
  pointers f member _ bound := Or.inr (bnDirect_agree (agree f (.file f member)) bound)

theorem Synced.layout (layout : Layout g img) (synced : Synced g disk img) : Layout g disk := by
  have record := used_agree g synced.bitmap
  rw [Layout, record]
  apply Owned.forget layout
  rintro ⟨f, i⟩
  simp only [slots]
  rcases synced.pointers f.1 f.2 i i.isLt with zero | same
  · left
    rw [if_pos zero]
  · right
    rw [same]

section

variable (synced : Synced g disk img)
include synced

theorem Synced.store (aligned : block % BLOCKSIZE = 0)
    (others : ∀ offset, g.Reserved offset → offset ≠ block → AgreeAt changed img offset) :
    Synced g (copyBytes disk block changed block BLOCKSIZE) changed := by
  have here : AgreeAt (copyBytes disk block changed block BLOCKSIZE) changed block :=
    fun index inside => copyBytes_offset _ _ _ _ _ _ inside
  have elsewhere : ∀ offset, g.Reserved offset → offset ≠ block →
      AgreeAt (copyBytes disk block changed block BLOCKSIZE) disk offset := by
    intro offset member different
    exact agreeAt_copyBytes disk changed aligned (g.reserved_aligned member) different
      le_rfl le_rfl
  constructor
  · intro i bound
    have member : g.Reserved (g.bitmapOffset + i * BLOCKSIZE) := .bitmap i bound
    by_cases same : g.bitmapOffset + i * BLOCKSIZE = block
    · rw [same]
      exact here
    · intro index inside
      calc copyBytes disk block changed block BLOCKSIZE (g.bitmapOffset + i * BLOCKSIZE + index)
          = disk (g.bitmapOffset + i * BLOCKSIZE + index) := elsewhere _ member same index inside
        _ = img (g.bitmapOffset + i * BLOCKSIZE + index) := synced.bitmap i bound index inside
        _ = changed (g.bitmapOffset + i * BLOCKSIZE + index) :=
            (others _ member same index inside).symm
  · intro f member i bound
    by_cases same : f = block
    · right
      rw [same]
      exact bnDirect_agree here bound
    · rw [bnDirect_agree (elsewhere f (.file f member) same) bound,
        bnDirect_agree (others f (.file f member) same) bound]
      exact synced.pointers f member i bound

theorem Synced.enter {f i : Nat} (member : f ∈ g.files)
    (slot : i < 64) (absent : bnDirect img f i = 0) {value : Nat} (small : value < word64) :
    Synced g disk (storeLE img (directAt f i) 8 value) := by
  constructor
  · intro j bound index inside
    exact (synced.bitmap j bound index inside).trans
      (agreeAt_direct g img member slot value (g.reserved_aligned (.bitmap j bound))
        (bitmap_ne_file g member bound) index inside).symm
  · intro h other j bound
    by_cases sameFile : h = f
    · subst h
      rw [bnDirect_store img f small]
      by_cases sameSlot : j = i
      · left
        have known := synced.pointers f member i slot
        rw [absent, or_self] at known
        rw [sameSlot]
        exact known
      · rw [if_neg sameSlot]
        exact synced.pointers f member j bound
    · rw [bnDirect_agree (agreeAt_direct g img member slot value (g.fileAligned h other) sameFile)
        bound]
      exact synced.pointers h other j bound

theorem Synced.agree
    (same : ∀ offset, g.Reserved offset → AgreeAt changed img offset) : Synced g disk changed where
  bitmap i bound index inside :=
    (synced.bitmap i bound index inside).trans (same _ (.bitmap i bound) index inside).symm
  pointers f member i bound := by
    rw [bnDirect_agree (same f (.file f member)) bound]
    exact synced.pointers f member i bound

end

end

def Logged (g : Geometry) (start s : BufState) : Prop :=
  ∃ written, s.writes = start.writes ++ written ∧
    s.disk = Runs.replay applyWrite start.disk written ∧
    Runs.Throughout applyWrite (fun disks => Layout g (disks g.disk)) start.disk written

/-- The blocks that must be read correctly: a data block may be unreadable. -/
def metadata (g : Geometry) (disk : DiskId) (offset : Nat) : Prop :=
  disk = g.disk ∧ g.Reserved offset

structure Backed (g : Geometry) (start s : BufState) : Prop where
  synced : Synced g (s.disk g.disk) (image s g.disk)
  logged : Logged g start s

structure Journaled (bufBase : Nat) (g : Geometry) (fs : VFS) (start s : BufState) : Prop where
  coherent : Coherent bufBase (metadata g) s
  mounted : Mounted g fs s
  writes : ∀ n, s.writeStatus n = 0
  blockSize : sbBlockSize (image s g.disk) 0 = BLOCKSIZE
  layout : Layout g (image s g.disk)
  sized : Sized g (image s g.disk)
  backed : Backed g start s

section

variable {bufBase : Nat} {g : Geometry} {fs : VFS} {start s t : BufState} {vn : VNode} {f : Nat}

theorem Journaled.readsBlockSize (journaled : Journaled bufBase g fs start s) (vfs : vn.vfs = fs) :
    sbBlockSize s.memory (bufferOf s vn.vfs.fsptr) = BLOCKSIZE := by
  rw [vfs, journaled.mounted.blockSize journaled.coherent.rep, journaled.blockSize]

theorem Logged.write (logged : Logged g start s) {disk : DiskId}
    (disks : t.disk = (writtenBack s e disk offset).disk)
    (writes : t.writes = (writtenBack s e disk offset).writes)
    (layout : Layout g (t.disk g.disk)) : Logged g start t := by
  obtain ⟨written, list, replayed, good⟩ := logged
  have applied : t.disk = applyWrite (Runs.replay applyWrite start.disk written)
      ⟨disk, offset, fun index => s.memory ((s.entry e).buffer + index)⟩ := by
    rw [disks, ← replayed, applyWrite, copyBytes_shift]
    rfl
  refine ⟨written ++ [⟨disk, offset, fun index => s.memory ((s.entry e).buffer + index)⟩],
    ?_, ?_, ?_⟩
  · rw [writes, ← List.append_assoc, ← list]
    rfl
  · rw [Runs.replay_snoc]
    exact applied
  · apply good.snoc
    rw [← applied]
    exact layout

theorem Backed.write {trusted : DiskId → Nat → Prop}
    (logged : Logged g start s) (synced : Synced g (s.disk g.disk) img)
    (coherent : Coherent bufBase trusted s) (key : HasKey s e g.disk block)
    (disks : t.disk = (writtenBack s e g.disk block).disk)
    (writes : t.writes = (writtenBack s e g.disk block).writes)
    (own : image t g.disk = image s g.disk) (others : ∀ offset, g.Reserved offset → offset ≠ block →
      AgreeAt (image t g.disk) img offset) (layout : Layout g (image t g.disk)) :
    Backed g start t := by
  have aligned := coherent.aligned e g.disk block key
  have copied : t.disk g.disk =
      copyBytes (s.disk g.disk) block (image t g.disk) block BLOCKSIZE := by
    rw [disks, own]
    simp only [writtenBack, Function.update_self]
    funext address
    by_cases inside : block ≤ address ∧ address < block + BLOCKSIZE
    · rw [copyBytes_inside _ _ _ _ _ _ inside.1 inside.2,
        copyBytes_inside _ _ _ _ _ _ inside.1 inside.2]
      exact (image_key coherent.rep key aligned (by omega)).symm
    · rw [copyBytes_outside _ _ _ _ _ _ (by omega), copyBytes_outside _ _ _ _ _ _ (by omega)]
  have after : Synced g (t.disk g.disk) (image t g.disk) := by
    rw [copied]
    exact synced.store aligned others
  exact ⟨after, logged.write disks writes (after.layout layout)⟩

theorem Journaled.keep (journaled : Journaled bufBase g fs start s)
    (coherent : Coherent bufBase (metadata g) t)
    (kept : ∀ e disk offset, Held s e disk offset → Held t e disk offset)
    (statuses : t.writeStatus = s.writeStatus) (disks : t.disk = s.disk)
    (writes : t.writes = s.writes)
    (agree : ∀ offset, g.Reserved offset → AgreeAt (image t g.disk) (image s g.disk) offset) :
    Journaled bufBase g fs start t where
  coherent := coherent
  mounted := journaled.mounted.keep kept
  writes n := by rw [statuses]; exact journaled.writes n
  blockSize := by
    rw [sbBlockSize, loadLE_agree (agree 0 .superblock) (by decide)]
    exact journaled.blockSize
  layout := journaled.layout.agree agree
  sized := journaled.sized.agree (fun h member => agree h (.file h member))
  backed := by
    have logged := journaled.backed.logged
    rw [Logged, ← disks, ← writes] at logged
    refine ⟨?_, logged⟩
    rw [disks]
    exact journaled.backed.synced.agree agree

/-! The reads: `O2FSResolveBuf` in the copy loop and `O2FSLoadVNode`. -/

theorem Journaled.read (journaled : Journaled bufBase g fs start s) (aligned : offset % BLOCKSIZE = 0)
    (ok : g.Reserved offset → s.readStatus 0 = 0 ∨ ∃ e, HasKey s e g.disk offset)
    {status : Int} {entry : Option EntryId}
    (ran : bufCache_Read s g.disk offset = (status, entry, t)) :
    Journaled bufBase g fs start t ∧ (∀ e d o, Held s e d o → Held t e d o) ∧
    (∀ o, g.Reserved o → AgreeAt (image t g.disk) (image s g.disk) o) ∧
    (entry = none → status = ENOMEM) ∧ ∀ e, entry = some e → Takes s t e g.disk offset := by
  obtain ⟨coherent, same, _⟩ := bufCache_Read_content journaled.coherent g.disk offset aligned
    (fun trust => ok trust.2)
  have taken := bufCache_Read_takes journaled.coherent.rep g.disk offset
  rw [ran] at coherent same taken
  have agree : ∀ o, g.Reserved o → AgreeAt (image t g.disk) (image s g.disk) o := by
    intro o member index inside
    have place := g.reserved_aligned member
    rw [image_block _ _ place inside, image_block _ _ place inside]
    exact same _ _ ⟨rfl, member⟩ index inside
  rcases taken with ⟨e, found, takes⟩ | failed
  · refine ⟨journaled.keep coherent (fun _ _ _ held => takes.kept held) takes.writeStatus
      takes.disks takes.writes agree, fun _ _ _ held => takes.kept held, agree, ?_, ?_⟩
    · intro missing
      simp [missing] at found
    · intro x present
      obtain rfl : e = x := Option.some.inj (found.symm.trans present)
      exact takes
  · simp only [Prod.mk.injEq] at failed
    obtain ⟨rfl, rfl, rfl⟩ := failed
    refine ⟨journaled.keep coherent (fun _ _ _ held => held) rfl rfl rfl agree,
      fun _ _ _ held => held, agree, fun _ => rfl, ?_⟩
    intro e present
    simp at present

theorem o2fsLoadVNode_journals (journaled : Journaled bufBase g fs start s) (member : f ∈ g.files)
    (ok : s.readStatus 0 = 0 ∨ ∃ e, HasKey s e g.disk f) {node : Option VNode}
    (loaded : o2fsLoadVNode fs f s = some (node, t)) : Journaled bufBase g fs start t := by
  rw [o2fsLoadVNode, loadBNode, journaled.mounted.disk] at loaded
  generalize ran : bufCache_Read s g.disk f = result at loaded
  obtain ⟨status, entry, u⟩ := result
  obtain ⟨after, kept, agree, missing, takes⟩ :=
    journaled.read (g.fileAligned f member) (fun _ => ok) ran
  simp only at loaded
  by_cases negative : status < 0
  · rw [if_pos negative] at loaded
    simp only [Option.map_some, Option.some.injEq, Prod.mk.injEq] at loaded
    exact loaded.2 ▸ after
  · rw [if_neg negative] at loaded
    cases entry with
    | none => simp at loaded
    | some e =>
      have taken := takes e rfl
      by_cases valid : bnodeOk u.memory (bufferOf u e) = true
      · simp only [valid, ↓reduceIte, Option.map_some, Option.some.injEq, Prod.mk.injEq] at loaded
        exact loaded.2 ▸ after
      · simp only [valid, Bool.false_eq_true, ↓reduceIte, Option.map_some, Option.some.injEq,
          Prod.mk.injEq] at loaded
        rw [← loaded.2]
        have own := journaled.coherent
        have same : ∀ index < BLOCKSIZE, content u g.disk f index = content s g.disk f index := by
          intro index inside
          have place := g.fileAligned f member
          rw [← image_block _ _ place inside, ← image_block _ _ place inside]
          exact agree f (.file f member) index inside
        obtain ⟨released, contents⟩ := bufCache_Release_content after.coherent taken.key.1
          taken.held.2 (by
            intro last d o _ key index inside
            obtain ⟨rfl, rfl⟩ := key.inj taken.key
            exact taken.clean own after.coherent ⟨rfl, .file _ member⟩ same last index inside)
        refine journaled.keep released (taken.visit rfl).kept taken.writeStatus taken.disks
          taken.writes ?_
        intro o reserved index inside
        rw [← agree o reserved index inside]
        exact contents _ _ _

/-! Growing a file, to the end or until the disk is full. -/

structure Extending (bufBase : Nat) (g : Geometry) (start s : BufState) (f first i : Nat)
  (t : BufState) : Prop where
  growth : Growth bufBase (metadata g) g s f first i t
  backed : Backed g start t

theorem Grown.sized {before after : Memory} (grown : Grown g f before after)
    (sized : Sized g before) : Sized g after := by
  intro h member
  by_cases same : h = f
  · subst h
    obtain ⟨most, present⟩ := sized f member
    rw [grown.size]
    refine ⟨most, ?_⟩
    intro i below
    have slot : i < 64 := by
      unfold BLOCKSIZE at *
      omega
    rw [grown.pointers i slot (present i below)]
    exact present i below
  · obtain ⟨most, present⟩ := sized h member
    rw [bnSize_agree (grown.files h member same)]
    refine ⟨most, ?_⟩
    intro i below
    have slot : i < 64 := by
      unfold BLOCKSIZE at *
      omega
    rw [bnDirect_agree (grown.files h member same) slot]
    exact present i below

theorem Extending.journaled (journaled : Journaled bufBase g fs start s)
    (extending : Extending bufBase g start s f first i t) : Journaled bufBase g fs start t where
  coherent := extending.growth.coherent
  mounted := journaled.mounted.keep (Steady.of_entry extending.growth.entries).kept
  writes := extending.growth.writes
  blockSize := by
    rw [sbBlockSize, loadLE_agree extending.growth.grown.superblock (by decide)]
    exact journaled.blockSize
  layout := extending.growth.grown.layout
  sized := extending.growth.grown.sized journaled.sized
  backed := extending.backed

theorem Extending.take {u : BufState} (mounted : Mounted g fs s)
    (opened : Opened g fs s vn f) (extending : Extending bufBase g start s f first i u)
    (slot : i < 64) (absent : bnDirect (image u g.disk) f i = 0) :
    o2fsBAlloc fs u = (0, u) ∨
    (o2fsBAlloc fs u).1 ≠ 0 ∧ Extending bufBase g start s f first (i + 1) (withMemory (o2fsBAlloc fs u).2
      (storeLE (o2fsBAlloc fs u).2.memory (directAt (bufferOf s vn.fsptr) i) 8
        (mul64 (o2fsBAlloc fs u).1 fs.blksize))) := by
  have growth := extending.growth
  have node := (growth.node opened).held
  rcases o2fsBAlloc_layout growth.coherent.rep (mounted.keep (Steady.of_entry growth.entries).kept)
    growth.grown.layout (growth.writes 0) with
    ⟨_, full⟩ | ⟨n, e, bound, positive, clear, _, held, result⟩
  · exact .inl full
  · right
    rw [growth.claimed_eq mounted bound result]
    obtain ⟨marked, bits, _⟩ := marked_image growth.coherent bound held
    obtain ⟨_, own, _⟩ := allocated_image growth.coherent bound held
    obtain ⟨_, entered, _⟩ := claimed_image growth.coherent bound held node slot
    have layout : Layout g (image (allocated u e g n) g.disk) := by
      rw [own]
      exact growth.grown.layout.setBit bound
    have recorded : Backed g start (allocated u e g n) := by
      refine Backed.write (s := withMemory u (setBit u.memory (bufferOf u e) (n / 8 % BLOCKSIZE)
        (n % 8))) extending.backed.logged extending.backed.synced marked held.1 rfl rfl
        (own.trans bits.symm) ?_ layout
      intro offset member different
      rw [own]
      exact agreeAt_setBit_block g _ bound (g.reserved_aligned member) different
    have empty : bnDirect (image (allocated u e g n) g.disk) f i = 0 := by
      rw [own, bnDirect_agree (agreeAt_setBit g _ bound (g.fileAligned f opened.member)
        (g.fileApart f opened.member)) slot]
      exact absent
    refine ⟨by rw [result]; exact positive,
      growth.take opened bound positive clear held slot absent, ?_, recorded.logged⟩
    rw [entered, ← own]
    exact recorded.synced.enter opened.member slot empty (g.offset_lt bound)

theorem Extending.finish (journaled : Journaled bufBase g fs start s) (opened : Opened g fs s vn f)
    (extending : Extending bufBase g start s f (blockCeil (bnSize (image s g.disk) f))
      (blockCeil filesz) t) (bound : filesz ≤ 64 * BLOCKSIZE) :
    let u := (bufCache_Write (withMemory t
      (storeLE t.memory (bufferOf s vn.fsptr + 16) 8 filesz)) vn.fsptr).2
    Journaled bufBase g fs start u ∧ u.entry = s.entry ∧ bnSize (image u g.disk) f = filesz := by
  intro u
  have growth := extending.growth
  obtain ⟨result, key, stored, own, _, resized, layout, sized, superblock⟩ :=
    growth.finish journaled.sized opened bound
  obtain ⟨coherent, same⟩ := writtenBack_image stored key
  have state : u = writtenBack _ vn.fsptr g.disk f := result
  have entries : u.entry = s.entry := by
    rw [state]
    exact growth.entries
  have image : image u g.disk = BufCache.image (withMemory t
      (storeLE t.memory (bufferOf s vn.fsptr + 16) 8 filesz)) g.disk := by
    rw [state]
    exact same g.disk
  rw [← image] at layout sized superblock resized own
  refine ⟨⟨?_, journaled.mounted.keep (Steady.of_entry entries).kept, ?_, ?_, layout, sized, ?_⟩,
    entries, resized.size⟩
  · rw [state]
    exact coherent
  · intro n
    rw [state]
    exact growth.writes (n + 1)
  · rw [sbBlockSize, loadLE_agree superblock (by decide)]
    exact journaled.blockSize
  · refine Backed.write (s := withMemory t (storeLE t.memory (bufferOf s vn.fsptr + 16) 8 filesz))
      extending.backed.logged extending.backed.synced stored key (by rw [state]) (by rw [state])
      image ?_ layout
    intro offset member different
    rw [own]
    exact agreeAt_size g _ opened.member filesz (g.reserved_aligned member) different

theorem o2fsGrowVNode_journals (journaled : Journaled bufBase g fs start s)
    (opened : Opened g fs s vn f) (bound : filesz ≤ 64 * BLOCKSIZE)
    (larger : bnSize (image s g.disk) f < filesz) :
    ∃ status t, o2fsGrowVNode vn filesz s = some (status, t) ∧
      Journaled bufBase g fs start t ∧ t.entry = s.entry ∧
      (status = -ENOSPC ∨ status = 0 ∧ bnSize (image t g.disk) f = filesz) := by
  have size := opened.size journaled.coherent.rep
  have sizeBound := (journaled.sized f opened.member).1
  have stopBound := blockCeil_le bound
  have ordered : blockCeil (bnSize (image s g.disk) f) ≤ blockCeil filesz := by
    unfold blockCeil
    exact Nat.div_le_div_right (by omega)
  have result := o2fsGrowVNode_eq opened.vfs journaled.mounted.blksize size sizeBound bound
  have begin : ∀ first, Extending bufBase g start s f first first s := fun first =>
    ⟨⟨journaled.coherent, rfl, journaled.writes, .refl journaled.layout f,
      fun j low high => by omega⟩, journaled.backed⟩
  have ran := growLoop_rule fs (bufferOf s vn.fsptr) (blockCeil filesz)
    (Extending bufBase g start s f (blockCeil (bnSize (image s g.disk) f)))
    (fun u => ∃ i, Extending bufBase g start s f (blockCeil (bnSize (image s g.disk) f)) i u)
    ?skip ?full ?take (blockCeil filesz - blockCeil (bnSize (image s g.disk) f))
    (blockCeil (bnSize (image s g.disk) f)) s (begin _) (by omega)
  · rw [result]
    rcases ran with ⟨status, extending⟩ | ⟨status, i, extending⟩
    · rw [if_neg (not_not.mpr status)]
      obtain ⟨after, entries, size⟩ := extending.finish journaled opened bound
      exact ⟨0, _, rfl, after, entries, .inr ⟨rfl, size⟩⟩
    · rw [if_pos (by rw [status]; decide)]
      exact ⟨_, _, rfl, extending.journaled journaled, extending.growth.entries, .inl status⟩
  case skip =>
    intro i u extending less present
    rw [extending.growth.direct opened (by omega)] at present
    exact ⟨extending.growth.skip present, extending.backed⟩
  case full =>
    intro i u extending less absent none
    rw [extending.growth.direct opened (by omega)] at absent
    rcases extending.take journaled.mounted opened (by omega) absent with full | ⟨found, _⟩
    · rw [full]
      exact ⟨i, extending⟩
    · exact absurd none found
  case take =>
    intro i u extending less absent some
    rw [extending.growth.direct opened (by omega)] at absent
    rcases extending.take journaled.mounted opened (by omega) absent with full | ⟨_, next⟩
    · rw [full] at some
      exact absurd rfl some
    · exact next

/-! The copy loop, to the end or up to a block that cannot be read. -/

structure Copying (bufBase : Nat) (g : Geometry) (fs : VFS) (start s t : BufState) : Prop where
  journaled : Journaled bufBase g fs start t
  kept : ∀ e disk offset, Held s e disk offset → Held t e disk offset
  reserved : ∀ offset, g.Reserved offset → AgreeAt (image t g.disk) (image s g.disk) offset

theorem Copying.write {b bOff n : Nat}
    (before : Journaled bufBase g fs start s) (after : Journaled bufBase g fs start t)
    (agree : ∀ o, g.Reserved o → AgreeAt (image t g.disk) (image s g.disk) o)
    (member : f ∈ g.files) (slot : b < 64)
    (takes : Takes s t e g.disk (bnDirect (image s g.disk) f b)) (fits : bOff + n ≤ BLOCKSIZE)
    (hole : bnDirect (image s g.disk) f b = 0 → n = 0) (buf : Nat) (accesses : List Access) :
    Copying bufBase g fs start s (writeBlock ⟨t, accesses⟩ e buf bOff n).cache := by
  obtain ⟨result, coherent, steady, own, _, _⟩ :=
    writeBlock_cache takes after.coherent (after.writes 0) buf fits accesses
  generalize (writeBlock ⟨t, accesses⟩ e buf bOff n).cache = u at *
  have same : bnDirect (image t g.disk) f b = bnDirect (image s g.disk) f b :=
    bnDirect_agree (agree f (.file f member)) slot
  have untouched : ∀ o, g.Reserved o → AgreeAt (image u g.disk) (image t g.disk) o := by
    intro o kept
    rw [own]
    by_cases zero : bnDirect (image s g.disk) f b = 0
    · rw [hole zero, copyBytes_zero]
      exact fun _ _ => rfl
    · rw [← same] at zero ⊢
      exact agreeAt_data after.layout member slot zero _ fits kept
  have unchanged : ∀ o, g.Reserved o → AgreeAt (image u g.disk) (image s g.disk) o :=
    fun o kept => (untouched o kept).trans (agree o kept)
  obtain ⟨copied, contents, _⟩ := copy_image after.coherent takes.held fits t.memory buf
  refine ⟨⟨coherent, before.mounted.keep steady.kept, ?_, ?_, after.layout.agree untouched,
    after.sized.agree (fun h inside => untouched h (.file h inside)), ?_⟩, steady.kept, unchanged⟩
  · intro m
    rw [result]
    exact after.writes (m + 1)
  · rw [sbBlockSize, loadLE_agree (untouched 0 .superblock) (by decide)]
    exact after.blockSize
  · exact Backed.write (s := withMemory t (copyBytes t.memory ((t.entry e).buffer + bOff) t.memory
      buf n)) after.backed.logged after.backed.synced copied takes.key (by rw [result]; rfl)
      (by rw [result]; rfl) (own.trans contents.symm) (fun o kept _ => untouched o kept)
      (after.layout.agree untouched)

theorem Copying.round {buf off length k : Nat}
    (sized : Sized g (image s g.disk)) (opened : Opened g fs s vn f)
    (covered : off + length ≤ bnSize (image s g.disk) f) (inside : 0 < length ∨ off < 64 * BLOCKSIZE)
    (copying : Copying bufBase g fs start s io.cache) (more : k < length ∨ k = 0 ∧ length = 0) :
    roundOf writeBlock vn BLOCKSIZE io (buf + k) ((off + k) % word64) (length - k)
      (fun next => Copying bufBase g fs start s next.cache)
      (fun _ next => Copying bufBase g fs start s next.cache) := by
  have current := copying.journaled
  have node := opened.keep copying.kept
  have most := (sized f opened.member).1
  have small : off + length < word64 := by
    unfold BLOCKSIZE word64 at *
    omega
  have offset : (off + k) % word64 = off + k := Nat.mod_eq_of_lt (by omega)
  have chunk : chunkLength BLOCKSIZE (off + k) (length - k) =
      min (BLOCKSIZE - (off + k) % BLOCKSIZE) (length - k) := chunkLength_eq (by omega)
  have number := Nat.div_add_mod' (off + k) BLOCKSIZE
  have index := blockIndex_lt (off + k)
  have slot : (off + k) / BLOCKSIZE < 64 := by
    apply Nat.div_lt_of_lt_mul
    omega
  have pointer : bnDirect (image io.cache g.disk) f ((off + k) / BLOCKSIZE) =
      bnDirect (image s g.disk) f ((off + k) / BLOCKSIZE) :=
    bnDirect_agree (copying.reserved f (.file f opened.member)) slot
  have hole : bnDirect (image io.cache g.disk) f ((off + k) / BLOCKSIZE) = 0 → length - k = 0 := by
    intro zero
    by_contra positive
    rw [pointer] at zero
    exact (sized f opened.member).2 _ (by omega) zero
  have readable : g.Reserved (bnDirect (image io.cache g.disk) f ((off + k) / BLOCKSIZE)) →
      io.cache.readStatus 0 = 0 ∨ ∃ e, HasKey io.cache e g.disk
        (bnDirect (image io.cache g.disk) f ((off + k) / BLOCKSIZE)) := by
    intro kept
    right
    by_cases zero : bnDirect (image io.cache g.disk) f ((off + k) / BLOCKSIZE) = 0
    · rw [zero]
      exact ⟨_, current.mounted.superblock.1⟩
    · exact absurd kept (current.layout.pointer opened.member slot zero).2
  have resolved : o2fsResolveBuf vn ((off + k) / BLOCKSIZE) io.cache = bufCache_Read io.cache g.disk
      (bnDirect (image io.cache g.disk) f ((off + k) / BLOCKSIZE)) := by
    rw [o2fsResolveBuf, node.direct current.coherent.rep slot, opened.disk]
  rw [offset, roundOf, resolved, chunk]
  generalize ran : bufCache_Read io.cache g.disk
    (bnDirect (image io.cache g.disk) f ((off + k) / BLOCKSIZE)) = result
  obtain ⟨status, entry, t⟩ := result
  obtain ⟨after, kept, agree, missing, takes⟩ := current.read
    (current.layout.pointer_aligned opened.member slot) readable ran
  by_cases failed : status = 0
  · right
    refine ⟨failed, ?_⟩
    cases entry with
    | none =>
      rw [missing rfl] at failed
      exact absurd failed (by decide)
    | some e =>
      have fits : (off + k) % BLOCKSIZE +
          min (BLOCKSIZE - (off + k) % BLOCKSIZE) (length - k) ≤ BLOCKSIZE := by omega
      have next := Copying.write current after agree opened.member slot (takes e rfl) fits
        (fun zero => by rw [hole zero, min_zero]) (buf + k) io.accesses
      exact ⟨e, rfl, next.journaled, fun x d o held => next.kept x d o (copying.kept x d o held),
        fun o member => (next.reserved o member).trans (copying.reserved o member)⟩
  · left
    exact ⟨failed, after, fun x d o held => kept x d o (copying.kept x d o held),
      fun o member => (agree o member).trans (copying.reserved o member)⟩

theorem o2fsGrowVNode_too_large (vfs : vn.vfs = fs)
    (blksize : fs.blksize = BLOCKSIZE) (large : 64 * BLOCKSIZE < filesz) :
    o2fsGrowVNode vn filesz s = some (-EINVAL, s) := by
  have limit : mul64 BLOCKSIZE O2FS_DIRECT_PTR = 64 * BLOCKSIZE := by decide
  have positive : BLOCKSIZE ≠ 0 := by decide
  unfold o2fsGrowVNode
  simp only [vfs, blksize, limit, positive, large, ↓reduceIte]

theorem writeLoop_journals
    (journaled : Journaled bufBase g fs start io.cache) (opened : Opened g fs io.cache vn f)
    (covered : off + length ≤ bnSize (image io.cache g.disk) f)
    (inside : 0 < length ∨ off < 64 * BLOCKSIZE) :
    ∃ result t, blockLoop writeBlock vn (length + 1) io buf off length 0 = some (result, t) ∧
      Journaled bufBase g fs start t.cache := by
  have most := (journaled.sized f opened.member).1
  have offBound : off < word64 := by
    unfold BLOCKSIZE word64 at *
    omega
  obtain ⟨result, t, ran, outcome⟩ := blockLoop_rule
    (fun _ next => Copying bufBase g fs start io.cache next.cache)
    (fun _ next => Copying bufBase g fs start io.cache next.cache)
    blockSize_pos offBound
    (fun _ _ copying => copying.journaled.readsBlockSize opened.vfs)
    (fun k next copying more =>
      copying.round journaled.sized opened covered inside more)
    io ⟨journaled, fun _ _ _ held => held, fun _ _ _ _ => rfl⟩
  rcases outcome with ⟨_, copying⟩ | copying
  · exact ⟨result, t, ran, copying.journaled⟩
  · exact ⟨result, t, ran, copying.journaled⟩

/-- A write that does not wrap around and stays inside the pointers of a block node. -/
structure JournalRequest (g : Geometry) (fs : VFS) (s : BufState) (vn : VNode)
  (f off length : Nat) : Prop where
  opened : Opened g fs s vn f
  small : off + length < word64
  inside : 0 < length ∨ off < 64 * BLOCKSIZE

theorem o2fs_Write_journals (journaled : Journaled bufBase g fs start io.cache)
    (request : JournalRequest g fs io.cache vn f off length) (buf : Nat) :
    ∃ result t, o2fs_Write vn buf off length io = some (result, t) ∧
      Journaled bufBase g fs start t.cache := by
  have opened := request.opened
  have positive : BLOCKSIZE ≠ 0 := by decide
  have blockSize := journaled.readsBlockSize opened.vfs
  unfold o2fs_Write
  rw [blockSize, if_neg positive, add64_of_lt request.small, opened.size journaled.coherent.rep]
  by_cases larger : bnSize (image io.cache g.disk) f < off + length
  · rw [if_pos larger]
    by_cases large : 64 * BLOCKSIZE < off + length
    · rw [o2fsGrowVNode_too_large opened.vfs journaled.mounted.blksize large]
      have negative : -EINVAL < 0 := by decide
      simp only [negative, ↓reduceIte]
      exact ⟨-EINVAL, io, rfl, journaled⟩
    · obtain ⟨status, u, grew, after, entries, outcome⟩ :=
        o2fsGrowVNode_journals journaled opened (Nat.le_of_not_lt large) larger
      rw [grew]
      rcases outcome with rfl | ⟨rfl, size⟩
      · have negative : -ENOSPC < 0 := by decide
        simp only [negative, ↓reduceIte]
        exact ⟨-ENOSPC, _, rfl, after⟩
      · simp only [Int.lt_irrefl, ↓reduceIte]
        exact writeLoop_journals after (opened.keep (Steady.of_entry entries).kept)
          (le_of_eq size.symm) request.inside
  · rw [if_neg larger]
    exact writeLoop_journals journaled opened (Nat.le_of_not_lt larger) request.inside

inductive JournalOp where
  | load (f : Nat)
  | write (vn : VNode) (f buf off length : Nat)

/-- Opening a file whose block node can be read, and writing to an open file. -/
inductive JournalStep (g : Geometry) (fs : VFS) : IoState → JournalOp → IoState → Prop where
  | load (s : IoState) (f : Nat) (node : Option VNode) (t : BufState) (member : f ∈ g.files)
      (readable : s.cache.readStatus 0 = 0 ∨ ∃ e, HasKey s.cache e g.disk f)
      (loaded : o2fsLoadVNode fs f s.cache = some (node, t)) :
      JournalStep g fs s (.load f) { s with cache := t }
  | write (s : IoState) (vn : VNode) (f buf off length : Nat) (result : Int) (t : IoState)
      (request : JournalRequest g fs s.cache vn f off length)
      (ran : o2fs_Write vn buf off length s = some (result, t)) :
      JournalStep g fs s (.write vn f buf off length) t

theorem journalStep_inv {s t : IoState} {op : JournalOp}
    (journaled : Journaled bufBase g fs start s.cache) (step : JournalStep g fs s op t) :
    Journaled bufBase g fs start t.cache := by
  cases step with
  | load f node u member readable loaded =>
    exact o2fsLoadVNode_journals journaled member readable loaded
  | write vn f buf off length result t request ran =>
    obtain ⟨_, u, finished, after⟩ := o2fs_Write_journals journaled request buf
    obtain ⟨_, rfl⟩ := Prod.mk.inj (Option.some.inj (ran.symm.trans finished))
    exact after

/-- Crash consistency of allocation. Cut the block writes of any sequence of `O2FS_Write`
calls off anywhere: on disk no block node refers to a block whose bit is clear, and no
block is referred to twice. -/
theorem o2fs_crash_consistent (start : IoState)
    (coherent : Coherent bufBase (metadata g) start.cache) (mounted : Mounted g fs start.cache)
    (writes : ∀ n, start.cache.writeStatus n = 0)
    (cached : ∀ offset, g.Reserved offset →
      AgreeAt (start.cache.disk g.disk) (image start.cache g.disk) offset)
    (blockSize : sbBlockSize (start.cache.disk g.disk) 0 = BLOCKSIZE)
    (layout : Layout g (start.cache.disk g.disk)) (sized : Sized g (start.cache.disk g.disk))
    {ops : List JournalOp} {t : IoState} (ran : Runs.Run (JournalStep g fs) start ops t) :
    (∃ written, t.cache.writes = start.cache.writes ++ written ∧
      t.cache.disk = Runs.replay applyWrite start.cache.disk written ∧
      ∀ done, done <+: written →
        Consistent g (Runs.replay applyWrite start.cache.disk done g.disk)) ∧
    ∀ vn f buf off length, JournalRequest g fs t.cache vn f off length →
      ∃ result u, o2fs_Write vn buf off length t = some (result, u) := by
  have same : ∀ offset, g.Reserved offset →
      AgreeAt (image start.cache g.disk) (start.cache.disk g.disk) offset :=
    fun offset member index inside => (cached offset member index inside).symm
  have begin : Journaled bufBase g fs start.cache start.cache := by
    refine ⟨coherent, mounted, writes, ?_, layout.agree same,
      sized.agree (fun h member => same h (.file h member)), .of_agree cached, [], ?_, rfl, .nil layout⟩
    · rw [sbBlockSize, loadLE_agree (same 0 .superblock) (by decide)]
      exact blockSize
    · rw [List.append_nil]
  have journaled := ran.invariant (fun s => Journaled bufBase g fs start.cache s.cache)
    (fun _ _ _ before step => journalStep_inv before step) begin
  constructor
  · obtain ⟨written, list, replayed, good⟩ := journaled.backed.logged
    exact ⟨written, list, replayed, fun done cut => (good done cut).consistent⟩
  · intro vn f buf off length request
    obtain ⟨result, u, finished, _⟩ := o2fs_Write_journals journaled request buf
    exact ⟨result, u, finished⟩

end

theorem o2fs_crash_consistent_empty :
    let start := bufCacheInit 0 (fun _ => 0) (fun _ => emptyImage) (fun _ => 0) (fun _ => 0)
    ∃ fs root s result t, o2fs_Mount 1 start = some (some (fs, root), s) ∧
      o2fs_Write root (2 ^ 32) 0 1 ⟨s, []⟩ = some (result, t) ∧
      ∃ written, t.cache.writes = s.writes ++ written ∧ ∀ done, done <+: written →
        Consistent emptyGeometry (Runs.replay applyWrite s.disk done 1) := by
  intro start
  have disk : image start emptyGeometry.disk = emptyImage := init_image _ _ _ _ _ _
  obtain ⟨fs, root, s, mount, mounted, vfs, rootDisk, held, retained⟩ :=
    o2fs_Mount_mounts (g := emptyGeometry) (init_coherent 0 (fun _ => 0) (fun _ => emptyImage)
      (fun _ => 0) (fun _ => 0)) (fun _ => rfl) (by rw [disk]; exact emptyImage_formatted)
      (by rw [init_unreferenced]; decide)
  have onDisk : s.disk emptyGeometry.disk = emptyImage := by rw [retained.disks]; rfl
  have cached : image s emptyGeometry.disk = emptyImage := by rw [retained.images]; exact disk
  have trusted : Coherent 0 (metadata emptyGeometry) s :=
    ⟨retained.coherent.rep, retained.coherent.aligned,
      fun e d o _ => retained.coherent.clean e d o trivial⟩
  have writes : ∀ n, s.writeStatus n = 0 := by
    intro n
    rw [retained.writeStatus]
    rfl
  have runs := fun ops t (ran : Runs.Run (JournalStep emptyGeometry fs) ⟨s, []⟩ ops t) =>
    o2fs_crash_consistent (g := emptyGeometry) ⟨s, []⟩ trusted mounted writes
      (by intro offset _ index _; rw [onDisk, cached])
      (by rw [onDisk]; exact emptyImage_formatted.blockSize)
      (by rw [onDisk]; exact emptyImage_layout) (by rw [onDisk]; exact emptyImage_sized) ran
  have rootOffset : sbRootOffset emptyImage 0 = 2 * BLOCKSIZE := by decide
  rw [disk, rootOffset] at held
  have request : JournalRequest emptyGeometry fs s root (2 * BLOCKSIZE) 0 1 :=
    ⟨⟨vfs, rootDisk, rfl, held⟩, by decide, .inl (by decide)⟩
  obtain ⟨result, t, ran⟩ := (runs [] _ (.nil _)).2 root _ (2 ^ 32) 0 1 request
  obtain ⟨written, list, _, good⟩ := (runs _ t (.single (.write _ _ _ _ _ _ _ _ request ran))).1
  exact ⟨fs, root, s, result, t, mount, ran, written, list, good⟩

def selfPointerImage : Memory :=
  withNode (smallVolume 7) (2 * BLOCKSIZE) BLOCKSIZE (2 * BLOCKSIZE)

/-- Write the offset of a free block at file offset 128, where `direct[1].offset` lies. -/
def selfPointerRun : Option (Int × IoState) := do
  let buf := 2 ^ 32
  let start := bufCacheInit 0 (storeLE (fun _ => 0) buf 8 (9 * BLOCKSIZE))
    (fun _ => selfPointerImage) (fun _ => 0) (fun _ => 0)
  let (mounted, s) ← o2fs_Mount 1 start
  let (_, root) ← mounted
  o2fs_Write root buf 128 8 ⟨s, []⟩

/-- Pointers to metadata have to be excluded: data written to such a block is metadata. -/
theorem self_pointer_breaks_consistency :
    Consistent emptyGeometry selfPointerImage ∧
    ∃ result t, selfPointerRun = some (result, t) ∧
      ¬ Consistent emptyGeometry
        (Runs.replay applyWrite (fun _ => selfPointerImage) t.cache.writes 1) := by
  have first : bnDirect selfPointerImage (2 * BLOCKSIZE) 0 = 2 * BLOCKSIZE := by decide
  have others : ∀ i : Fin 64, i ≠ 0 → bnDirect selfPointerImage (2 * BLOCKSIZE) i = 0 := by
    decide
  have only : ∀ i < 64, bnDirect selfPointerImage (2 * BLOCKSIZE) i ≠ 0 → i = 0 := by
    intro i bound nonzero
    by_contra different
    exact nonzero (others ⟨i, bound⟩ (fun same => different (congrArg Fin.val same)))
  have observed : selfPointerRun.map (fun ended =>
      let disk := Runs.replay applyWrite (fun _ => selfPointerImage) ended.2.cache.writes 1
      (ended.1, bnDirect disk (2 * BLOCKSIZE) 1, blockBit disk BLOCKSIZE 9)) =
        some (8, 9 * BLOCKSIZE, false) := by
    decide +kernel
  refine ⟨⟨?_, ?_⟩, ?_⟩
  · rintro f rfl i bound nonzero
    rw [only i bound nonzero, first]
    exact ⟨rfl, by decide, by decide⟩
  · rintro f rfl h rfl i bound j inside nonzero same
    have other : bnDirect selfPointerImage (2 * BLOCKSIZE) j ≠ 0 := by
      rw [same]
      exact nonzero
    exact ⟨rfl, (only j inside other).trans (only i bound nonzero).symm⟩
  · obtain ⟨⟨result, t⟩, ran, values⟩ := Option.map_eq_some_iff.mp observed
    simp only [Prod.mk.injEq] at values
    obtain ⟨_, pointer, clear⟩ := values
    refine ⟨result, t, ran, ?_⟩
    intro consistent
    have set := (consistent.marked (2 * BLOCKSIZE) rfl 1 (by decide)
      (by rw [pointer]; decide)).2.2
    rw [pointer, Nat.mul_div_cancel 9 (by decide)] at set
    exact absurd (clear.symm.trans set) (by decide)

end BoringOs.O2fs
