import BoringOs.LoaderImage

/-! `Loader_Load` puts every segment of an executable where its headers say. -/

namespace BoringOs.Loader

open ByteMemory BufCache O2fs PAlloc PMap Option Nat

/-- Program header `i` of the executable whose first bytes are at `buf`. -/
def headerAt (memory : Memory) (buf i : Nat) : Nat := buf + e_phoff memory buf + PHDR_SIZE * i

def segmentAt (memory : Memory) (buf i : Nat) : Segment := segmentOf memory (headerAt memory buf i)

variable {memory : Memory} {buf size h i : Nat} {start s : Loading}

def Loads (memory : Memory) (buf i : Nat) : Prop :=
  i < e_phnum memory buf ∧ p_type memory (headerAt memory buf i) = PT_LOAD

theorem Loads.before (loads : Loads memory buf h)
    (less : h < i + 1) (other : p_type memory (headerAt memory buf i) ≠ PT_LOAD) : h < i := by
  have differ : h ≠ i := by
    rintro rfl
    exact other loads.2
  omega

structure Executable (memory : Memory) (buf size : Nat) : Prop where
  valid : loader_CheckHeader memory buf = true
  headers : e_phoff memory buf + PHDR_SIZE * e_phnum memory buf ≤ HEADER_LENGTH
  static : ∀ i < e_phnum memory buf, p_type memory (headerAt memory buf i) ≠ PT_DYNAMIC
  loadable : ∀ i, Loads memory buf i → (segmentAt memory buf i).Loadable size
  disjoint : ∀ i j, Loads memory buf i → Loads memory buf j → i ≠ j →
    (segmentAt memory buf i).Disjoint (segmentAt memory buf j)

/-- The same without an order on the segments, which may overlap. -/
structure Harmless (memory : Memory) (buf size : Nat) : Prop where
  valid : loader_CheckHeader memory buf = true
  headers : e_phoff memory buf + PHDR_SIZE * e_phnum memory buf ≤ HEADER_LENGTH
  static : ∀ i < e_phnum memory buf, p_type memory (headerAt memory buf i) ≠ PT_DYNAMIC
  loadable : ∀ i, Loads memory buf i → (segmentAt memory buf i).Loadable size

theorem Executable.harmless (executable : Executable memory buf size) : Harmless memory buf size :=
  ⟨executable.valid, executable.headers, executable.static, executable.loadable⟩

/-- The pages of the segments from header `i` on, a shared page counted for each of them. -/
def segmentPages (memory : Memory) (buf : Nat) : Nat → Nat → Nat
  | 0, _ => 0
  | left + 1, i =>
    (if p_type memory (headerAt memory buf i) = PT_LOAD then (segmentAt memory buf i).pages else 0) +
      segmentPages memory buf left (i + 1)

section

variable {buf root size : Nat} {roots fixed : List Nat} {frames : Frames} {seg : Segment}

theorem Segment.Loadable.range (loadable : seg.Loadable size) :
    seg.vaddr &&& PGNUMMASK = seg.vaddr / PGSIZE * PGSIZE ∧
      add64 seg.memsz (seg.vaddr - seg.vaddr / PGSIZE * PGSIZE) = seg.memsz + seg.vaddr % PGSIZE ∧
      seg.pages ≤ 2 ^ 19 ∧
      seg.vaddr / PGSIZE + seg.pages = (seg.vaddr + seg.memsz - 1) / PGSIZE + 1 ∧
      seg.vaddr / PGSIZE * PGSIZE + seg.pages * PGSIZE ≤ MEM_USERSPACE_TOP := by
  have below := loadable.below
  have small := loadable.small
  have nonempty := loadable.nonempty
  have mask : PGNUMMASK = (2 ^ 52 - 1) <<< 12 := by decide
  have top : MEM_USERSPACE_TOP = 34359738368 * PGSIZE := by decide
  have start : seg.vaddr - seg.vaddr / PGSIZE * PGSIZE = seg.vaddr % PGSIZE := by
    unfold PGSIZE
    omega
  have least : seg.vaddr / PGSIZE + seg.pages = (seg.vaddr + seg.memsz - 1) / PGSIZE + 1 := by
    unfold Segment.pages pagesOf PGSIZE
    omega
  refine ⟨?_, ?_, ?_, least, ?_⟩
  · rw [mask, and_high_mask]
    · rfl
    · unfold MEM_USERSPACE_TOP at below
      omega
  · rw [start]
    refine add64_of_lt ?_
    unfold word64 PGSIZE
    omega
  · unfold Segment.pages pagesOf PGSIZE
    omega
  · rw [← Nat.add_mul, least, top]
    refine Nat.mul_le_mul_right _ ?_
    unfold PGSIZE at *
    omega

/-- The call of `PMap_AllocMap` for a segment. -/
def mapSegment (root : Nat) (seg : Segment) (frames : Frames) : Option Frames :=
  pMap_AllocMap root (seg.vaddr &&& PGNUMMASK) (add64 seg.memsz (seg.vaddr - (seg.vaddr &&& PGNUMMASK)))
    PTE_W frames

theorem Segment.Loadable.mapSegment_ends (loadable : seg.Loadable size)
    (space : Space roots fixed root frames) (free : 4 * seg.pages ≤ frames.freeList.length) :
    ∃ t, mapSegment root seg frames = some t := by
  obtain ⟨aligned, length, few, _, below⟩ := loadable.range
  rw [mapSegment, aligned, length]
  exact space.allocMap_ends (mul_mod_left _ _) few below free

theorem Segment.Loadable.mapSegment (loadable : seg.Loadable size)
    (space : Space roots fixed root frames) {t : Frames} (ran : mapSegment root seg frames = some t) :
    Space roots fixed root t ∧ seg.Mapped t root ∧
      (∀ va < MEM_USERSPACE_TOP, entryAt frames root va ≠ 0 → entryAt t root va ≠ 0) ∧
      frames.freeList.length ≤ t.freeList.length + 4 * seg.pages := by
  obtain ⟨aligned, length, few, least, below⟩ := loadable.range
  rw [Loader.mapSegment, aligned, length] at ran
  obtain ⟨space', mapped, kept, spent⟩ := space.allocMap (mul_mod_left _ _) few below ran
  refine ⟨space', ?_, kept, spent⟩
  rintro va ⟨first, last⟩
  have page : 0 < PGSIZE := by decide
  have range : va < (seg.vaddr / PGSIZE + seg.pages) * PGSIZE := by
    rw [least]
    exact (Nat.div_lt_iff_lt_mul page).mp (lt_succ_of_le last)
  rw [Nat.add_mul] at range
  exact mapped va ((Nat.le_div_iff_mul_le page).mp first) range

section

variable (harmless : Harmless start.memory buf size)
include harmless

theorem mapSegments_succ
    (same : s.io = start.io) {left i : Nat} (less : i < e_phnum start.memory buf) :
    mapSegments root (buf + e_phoff start.memory buf) (left + 1) i s =
      if p_type start.memory (headerAt start.memory buf i) = PT_LOAD then
        (mapSegment root (segmentAt start.memory buf i) s.frames).bind (fun frames =>
          mapSegments root (buf + e_phoff start.memory buf) left (i + 1) { s with frames := frames })
      else mapSegments root (buf + e_phoff start.memory buf) left (i + 1) s := by
  have memory : s.memory = start.memory := by
    rw [Loading.memory, same]
    rfl
  have static := harmless.static i less
  unfold headerAt at static
  rw [mapSegments]
  dsimp only
  rw [memory, if_neg static]
  rfl

theorem mapSegments_maps :
    ∀ left i s t, i + left = e_phnum start.memory buf → s.io = start.io →
      Space roots fixed root s.frames →
      (∀ h < i, Loads start.memory buf h → (segmentAt start.memory buf h).Mapped s.frames root) →
      mapSegments root (buf + e_phoff start.memory buf) left i s = some t →
      t.io = start.io ∧ Space roots fixed root t.frames ∧
        (∀ h, Loads start.memory buf h → (segmentAt start.memory buf h).Mapped t.frames root) ∧
        s.frames.freeList.length ≤
          t.frames.freeList.length + 4 * segmentPages start.memory buf left i := by
  intro left
  induction left with
  | zero =>
    intro i s t all same space mapped ran
    cases ran
    refine ⟨same, space, fun h loads => mapped h ?_ loads, Nat.le_add_right _ _⟩
    have := loads.1
    omega
  | succ left ih =>
    intro i s t all same space mapped ran
    rw [mapSegments_succ harmless same (by omega)] at ran
    rw [segmentPages]
    by_cases load : p_type start.memory (headerAt start.memory buf i) = PT_LOAD
    · have loads : Loads start.memory buf i := ⟨by omega, load⟩
      rw [if_pos load] at ran ⊢
      obtain ⟨frames, here, ran⟩ := bind_eq_some_iff.mp ran
      obtain ⟨space', mine, kept, spent⟩ := (harmless.loadable i loads).mapSegment space here
      obtain ⟨same', space'', mapped', spent'⟩ := ih (i + 1) { s with frames := frames } t (by omega)
        same space' (by
          intro h less loads'
          by_cases last : h = i
          · rw [last]
            exact mine
          · intro va inside
            exact kept va ((harmless.loadable h loads').user inside)
              (mapped h (by omega) loads' va inside)) ran
      refine ⟨same', space'', mapped', ?_⟩
      dsimp only at spent'
      omega
    · rw [if_neg load] at ran ⊢
      rw [zero_add]
      refine ih (i + 1) s t (by omega) same space ?_ ran
      exact fun h less loads => mapped h (loads.before less load) loads

theorem mapSegments_ends :
    ∀ left i s, i + left = e_phnum start.memory buf → s.io = start.io →
      Space roots fixed root s.frames →
      4 * segmentPages start.memory buf left i ≤ s.frames.freeList.length →
      ∃ t, mapSegments root (buf + e_phoff start.memory buf) left i s = some t := by
  intro left
  induction left with
  | zero =>
    intro i s _ _ _ _
    exact ⟨s, rfl⟩
  | succ left ih =>
    intro i s all same space free
    rw [mapSegments_succ harmless same (by omega)]
    rw [segmentPages] at free
    by_cases load : p_type start.memory (headerAt start.memory buf i) = PT_LOAD
    · have loadable := harmless.loadable i ⟨by omega, load⟩
      rw [if_pos load] at free ⊢
      obtain ⟨frames, here⟩ := loadable.mapSegment_ends space (by omega)
      obtain ⟨space', _, _, spent⟩ := loadable.mapSegment space here
      rw [here, bind_some]
      exact ih (i + 1) { s with frames := frames } (by omega) same space' (by dsimp only; omega)
    · rw [if_neg load] at free ⊢
      exact ih (i + 1) s (by omega) same space (by omega)

end

end

/-- The pages of the executable and of its stack, as `Loader_Load` allocates them before it loads
anything. -/
def mapImage (root buf : Nat) (s : Loading) : Option Frames :=
  (mapSegments root (buf + e_phoff s.memory buf) (e_phnum s.memory buf) 0 s).bind (fun s =>
    pMap_AllocMap root MEM_USERSPACE_STKBASE MEM_USERSPACE_STKLEN PTE_W s.frames)

structure LoadedTo (bufBase : Nat) (g : Geometry) (fs : VFS) (vn : VNode) (f root buf : Nat)
  (start : Loading) (i : Nat) (s : Loading) : Prop where
  ready : Ready bufBase g fs vn f start s
  header : ∀ k < HEADER_LENGTH, s.memory (buf + k) = start.memory (buf + k)
  bytes : ∀ h < i, Loads start.memory buf h → ∀ j < (segmentAt start.memory buf h).memsz,
    s.memory (placeOf start.frames root ((segmentAt start.memory buf h).vaddr + j)) =
      (segmentAt start.memory buf h).byte (image start.io.cache g.disk) f j

section

variable {bufBase buf : Nat} {g : Geometry} {fs : VFS} {vn : VNode} {f root : Nat}
  {roots fixed : List Nat} {start s : Loading} {i : Nat}

theorem Harmless.header_inside (harmless : Harmless memory buf size) (less : i < e_phnum memory buf) :
    ∀ o < PHDR_SIZE, ∃ k < HEADER_LENGTH, headerAt memory buf i + o = buf + k := by
  intro o inside
  have headers := harmless.headers
  have rows : PHDR_SIZE * (i + 1) ≤ PHDR_SIZE * e_phnum memory buf := Nat.mul_le_mul_left _ less
  rw [mul_succ] at rows
  refine ⟨e_phoff memory buf + PHDR_SIZE * i + o, by omega, ?_⟩
  unfold headerAt
  omega

theorem Harmless.mapped {size h j : Nat} (harmless : Harmless start.memory buf size)
    (mapped : ∀ h, Loads start.memory buf h → (segmentAt start.memory buf h).Mapped start.frames root)
    (loads : Loads start.memory buf h) (inside : j < (segmentAt start.memory buf h).memsz) :
    UserMapped start.frames root ((segmentAt start.memory buf h).vaddr + j) :=
  (harmless.loadable h loads).mapped (mapped h loads) (by omega) (by omega)

theorem Harmless.fill (space : Space roots fixed root start.frames) (apart : Apart fixed bufBase buf)
    (harmless : Harmless start.memory buf (bnSize (image start.io.cache g.disk) f))
    (mapped : ∀ h, Loads start.memory buf h → (segmentAt start.memory buf h).Mapped start.frames root)
    (less : i < e_phnum start.memory buf) (ready : Ready bufBase g fs vn f start s)
    (header : ∀ k < HEADER_LENGTH, s.memory (buf + k) = start.memory (buf + k)) :
    ∃ t, loadHeader root vn (headerAt start.memory buf i) s = some t ∧
      Ready bufBase g fs vn f start t ∧
      (∀ k < HEADER_LENGTH, t.memory (buf + k) = start.memory (buf + k)) ∧
      (Loads start.memory buf i → ∀ j < (segmentAt start.memory buf i).memsz,
        t.memory (placeOf start.frames root ((segmentAt start.memory buf i).vaddr + j)) =
          (segmentAt start.memory buf i).byte (image start.io.cache g.disk) f j) ∧
      ∀ address, Outside bufBase address → (Loads start.memory buf i →
        ∀ j < (segmentAt start.memory buf i).memsz,
          address ≠ placeOf start.frames root ((segmentAt start.memory buf i).vaddr + j)) →
        t.memory address = s.memory address := by
  have inHeader := harmless.header_inside less
  have same : ∀ o < PHDR_SIZE, s.memory (headerAt start.memory buf i + o) =
      start.memory (headerAt start.memory buf i + o) := by
    intro o inside
    obtain ⟨k, short, place⟩ := inHeader o inside
    rw [place]
    exact header k short
  obtain ⟨type, which⟩ : _ ∧ segmentOf s.memory (headerAt start.memory buf i) =
    segmentAt start.memory buf i := header_congr same
  by_cases load : p_type start.memory (headerAt start.memory buf i) = PT_LOAD
  · have loads : Loads start.memory buf i := ⟨less, load⟩
    obtain ⟨t, ran, progress⟩ := loadHeader_fills (ready.frames ▸ space) apart
      (Ready.refl ready.volume ready.opened ready.free) (type.trans load) which inHeader
      (ready.images ▸ harmless.loadable i loads) (ready.frames ▸ mapped i loads)
    obtain ⟨later, bytes, elsewhere⟩ := progress
    rw [ready.frames] at bytes elsewhere
    rw [ready.images] at bytes
    refine ⟨t, ran, ready.trans later, ?_, fun _ => bytes, fun address outside away =>
      elsewhere address outside (away loads)⟩
    intro k short
    rw [elsewhere _ (apart.header k short)]
    · exact header k short
    · intro j inside
      exact ((placeOf_apart space apart (harmless.mapped mapped loads inside)).2 k short).symm
  · refine ⟨s, ?_, ready, header, fun loads => absurd loads.2 load, fun _ _ _ => rfl⟩
    unfold loadHeader
    rw [type, if_neg load]

theorem LoadedTo.step (space : Space roots fixed root start.frames) (apart : Apart fixed bufBase buf)
    (executable : Executable start.memory buf (bnSize (image start.io.cache g.disk) f))
    (mapped : ∀ h, Loads start.memory buf h → (segmentAt start.memory buf h).Mapped start.frames root)
    (less : i < e_phnum start.memory buf) (loaded : LoadedTo bufBase g fs vn f root buf start i s) :
    ∃ t, loadHeader root vn (headerAt start.memory buf i) s = some t ∧
      LoadedTo bufBase g fs vn f root buf start (i + 1) t := by
  have harmless := executable.harmless
  obtain ⟨t, ran, ready, header, bytes, elsewhere⟩ :=
    harmless.fill space apart mapped less loaded.ready loaded.header
  refine ⟨t, ran, ready, header, ?_⟩
  intro h before loads j inside
  by_cases last : h = i
  · subst last
    exact bytes loads j inside
  · rw [elsewhere _ (placeOf_apart space apart (harmless.mapped mapped loads inside)).1]
    · exact loaded.bytes h (by omega) loads j inside
    · intro loads' j' inside'
      refine placeOf_ne space (harmless.mapped mapped loads inside)
        (harmless.mapped mapped loads' inside') ?_
      rcases executable.disjoint h i loads loads' last with before | after
      · omega
      · omega

theorem loadSegments_fills (start : Loading) (space : Space roots fixed root start.frames)
    (apart : Apart fixed bufBase buf)
    (executable : Executable start.memory buf (bnSize (image start.io.cache g.disk) f))
    (mapped : ∀ h, Loads start.memory buf h → (segmentAt start.memory buf h).Mapped start.frames root) :
    ∀ left i s, i + left = e_phnum start.memory buf → LoadedTo bufBase g fs vn f root buf start i s →
      ∃ t, loadSegments root vn (buf + e_phoff start.memory buf) left i s = some t ∧
        LoadedTo bufBase g fs vn f root buf start (e_phnum start.memory buf) t := by
  intro left
  induction left with
  | zero =>
    intro i s all loaded
    rw [← all]
    exact ⟨s, rfl, loaded⟩
  | succ left ih =>
    intro i s all loaded
    obtain ⟨t, ran, next⟩ := loaded.step space apart executable mapped (by omega)
    rw [loadSegments]
    unfold headerAt at ran
    rw [ran, bind_some]
    exact ih (i + 1) t (by omega) next

end

theorem mapImage_ends {buf root size : Nat} {roots fixed : List Nat}
    (space : Space roots fixed root s.frames) (harmless : Harmless s.memory buf size)
    (free : 4 * (segmentPages s.memory buf (e_phnum s.memory buf) 0 + 16) ≤ s.frames.freeList.length) :
    ∃ frames, mapImage root buf s = some frames := by
  obtain ⟨u, ran⟩ : ∃ u, mapSegments root (buf + e_phoff s.memory buf) (e_phnum s.memory buf) 0 s = some u :=
    mapSegments_ends harmless _ 0 s (Nat.zero_add _) rfl space (by omega)
  obtain ⟨_, space', _, spent⟩ := mapSegments_maps harmless _ 0 s u (Nat.zero_add _) rfl space
    (fun _ less => absurd less (Nat.not_lt_zero _)) ran
  have pages : pagesOf MEM_USERSPACE_STKLEN = 16 := by decide
  rw [mapImage, ran, bind_some]
  exact space'.allocMap_ends (by decide) (by decide) (by decide) (by rw [pages]; omega)

/-- When there is memory for its pages, every byte of every segment is after `Loader_Load` the one of
the file, or zero past its part of the file, whatever pages the segments share. Every page of the
segments and of the stack is mapped for the process, which starts at `e_entry`. -/
theorem loader_load_image {bufBase buf : Nat} {g : Geometry} {fs : VFS} {vn : VNode} {f root : Nat}
    {roots fixed : List Nat} {s : Loading} (space : Space roots fixed root s.frames)
    (apart : Apart fixed bufBase buf) (volume : Volume bufBase g fs s.io.cache)
    (opened : Opened g fs s.io.cache vn f)
    (unreferenced : ∃ e < CACHEENTRIES, (s.io.cache.entry e).refCount = 0)
    (executable : Executable s.memory buf (bnSize (image s.io.cache g.disk) f)) :
    (4 * (segmentPages s.memory buf (e_phnum s.memory buf) 0 + 16) ≤ s.frames.freeList.length →
      ∃ frames, mapImage root buf s = some frames) ∧
    ((∃ frames, mapImage root buf s = some frames) →
    ∃ t, loader_Load root vn buf s = some (true, t) ∧ t.entrypoint = e_entry s.memory buf ∧
      (∀ i, Loads s.memory buf i →
        (∀ j < (segmentAt s.memory buf i).memsz, ∃ pa,
          pMap_Translate root ((segmentAt s.memory buf i).vaddr + j) t.frames = some pa ∧
          t.memory (DMPA2VA pa) = if j < (segmentAt s.memory buf i).filesz
            then fileByte (image s.io.cache g.disk) f ((segmentAt s.memory buf i).offset + j) else 0) ∧
        ∀ va, (segmentAt s.memory buf i).InPages va → ∃ pg, entryAt t.frames root va = tableEntry pg) ∧
      ∀ va, MEM_USERSPACE_STKBASE ≤ va → va < MEM_USERSPACE_STKBASE + MEM_USERSPACE_STKLEN →
        ∃ pg, entryAt t.frames root va = tableEntry pg) := by
  refine ⟨mapImage_ends space executable.harmless, ?_⟩
  rintro ⟨frames, allocated⟩
  have phdr : add64 buf (e_phoff s.memory buf) = buf + e_phoff s.memory buf := by
    have headers := executable.headers
    have pointer := apart.pointer
    exact add64_of_lt (by omega)
  obtain ⟨⟨spent, io, entry⟩, ran, stacked⟩ := bind_eq_some_iff.mp allocated
  obtain ⟨same, space', mapped, _⟩ := mapSegments_maps executable.harmless _ 0 s _ (Nat.zero_add _) rfl space
    (fun _ less => absurd less (Nat.not_lt_zero _)) ran
  dsimp only at same space' mapped stacked
  subst same
  have pages : pagesOf MEM_USERSPACE_STKLEN = 16 := by decide
  have size : 16 * PGSIZE = MEM_USERSPACE_STKLEN := by decide
  obtain ⟨space'', stack, kept, _⟩ := space'.allocMap (by decide) (by decide) (by decide) stacked
  have mapped' : ∀ h, Loads s.memory buf h → (segmentAt s.memory buf h).Mapped frames root := by
    intro h loads va inside
    exact kept va ((executable.loadable h loads).user inside) (mapped h loads va inside)
  obtain ⟨t, filled, loaded⟩ : ∃ t, loadSegments root vn (buf + e_phoff s.memory buf)
      (e_phnum s.memory buf) 0 ⟨frames, s.io, entry⟩ = some t ∧
      LoadedTo bufBase g fs vn f root buf ⟨frames, s.io, entry⟩ (e_phnum s.memory buf) t := by
    refine loadSegments_fills ⟨frames, s.io, entry⟩ space'' apart executable mapped' _ 0 _
      (Nat.zero_add _) ?_
    exact ⟨Ready.refl volume opened unreferenced, fun _ _ => rfl,
      fun _ less => absurd less (Nat.not_lt_zero _)⟩
  have sameFrames : t.frames = frames := loaded.ready.frames
  have entryPage : ∀ va < MEM_USERSPACE_TOP, entryAt frames root va ≠ 0 →
      ∃ pg, entryAt t.frames root va = tableEntry pg := by
    intro va user present
    obtain ⟨pg, _, here⟩ := space''.mappedEntry user present
    exact ⟨pg, sameFrames ▸ here⟩
  refine ⟨{ t with entrypoint := e_entry t.memory buf }, ?_, ?_, ?_, ?_⟩
  · unfold loader_Load
    rw [phdr, if_pos executable.valid, ran, bind_some, stacked, bind_some, filled]
    rfl
  · refine loadLE_congr _ _ _ _ (fun place low high => ?_)
    have byte := loaded.header (place - buf) (by unfold HEADER_LENGTH; omega)
    rwa [Nat.add_sub_cancel' (by omega)] at byte
  · intro i loads
    have loadable := executable.loadable i loads
    refine ⟨fun j less => ?_, fun va inside => entryPage va (loadable.user inside) (mapped' i loads va inside)⟩
    obtain ⟨pa, translated, place⟩ :=
      (loadable.mapped (mapped' i loads) (Nat.le_add_right _ j) (by omega)).translate space''
    refine ⟨pa, sameFrames ▸ translated, ?_⟩
    have byte : t.memory (placeOf frames root ((segmentAt s.memory buf i).vaddr + j)) =
        (segmentAt s.memory buf i).byte (image s.io.cache g.disk) f j :=
      loaded.bytes i loads.1 loads j less
    rw [Segment.byte, ← place] at byte
    unfold Loading.memory at byte ⊢
    exact byte
  · intro va low high
    have user : va < MEM_USERSPACE_TOP := lt_trans high (by decide)
    exact entryPage va user (stack va low (by rwa [pages, size]))

/-- An executable of one byte, to be loaded at `0x400FFF` with 4999 zeros after it. -/
def smallElf : Memory := fun place => (List.lookup place [(0, ELFMAG0), (1, ELFMAG1), (2, ELFMAG2),
  (3, ELFMAG3), (4, ELFCLASS64), (18, 62), (24, 0xFF), (25, 0x0F), (26, 0x40), (32, 64), (56, 1), (64, 1),
  (80, 0xFF), (81, 0x0F), (82, 0x40), (96, 1), (104, 0x88), (105, 0x13)]).getD 0

theorem smallElf_executable (copied : ∀ k < HEADER_LENGTH, memory (buf + k) = smallElf k) :
    Executable memory buf 1 ∧ Loads memory buf 0 ∧ e_entry memory buf = 0x400FFF ∧
      segmentAt memory buf 0 = ⟨0x400FFF, 0, 1, 5000⟩ ∧ segmentPages memory buf (e_phnum memory buf) 0 = 3 := by
  have word : ∀ o width, o + width ≤ HEADER_LENGTH →
      loadLE memory (buf + o) width = loadLE smallElf o width := by
    intro o width inside
    rw [← loadLE_shift memory]
    refine loadLE_congr _ _ _ _ (fun place _ high => copied place (by omega))
  have machine : e_machine memory buf = EM_AMD64 := (word 18 2 (by decide)).trans (by decide)
  have entry : e_entry memory buf = 0x400FFF := (word 24 8 (by decide)).trans (by decide)
  have phoff : e_phoff memory buf = 64 := (word 32 8 (by decide)).trans (by decide)
  have phnum : e_phnum memory buf = 1 := (word 56 2 (by decide)).trans (by decide)
  have header : headerAt memory buf 0 = buf + 64 := by rw [headerAt, phoff]; rfl
  have load : p_type memory (buf + 64) = PT_LOAD := (word 64 4 (by decide)).trans (by decide)
  have segment : segmentAt memory buf 0 = ⟨0x400FFF, 0, 1, 5000⟩ := by
    have vaddr := (word 80 8 (by decide)).trans (show _ = 0x400FFF by decide)
    have offset := (word 72 8 (by decide)).trans (show _ = 0 by decide)
    have filesz := (word 96 8 (by decide)).trans (show _ = 1 by decide)
    have memsz := (word 104 8 (by decide)).trans (show _ = 5000 by decide)
    rw [segmentAt, header, segmentOf, p_vaddr, p_offset, p_filesz, p_memsz]
    simp only [add_assoc, reduceAdd, vaddr, offset, filesz, memsz]
  have only : ∀ i, Loads memory buf i → i = 0 := by
    rintro i ⟨less, _⟩
    omega
  refine ⟨⟨?_, ?_, ?_, ?_, ?_⟩, ⟨by omega, header ▸ load⟩, entry, segment, ?_⟩
  · have ident : ∀ k < 5, memory (buf + k) = smallElf k := fun k less =>
      copied k (lt_trans less (by decide))
    have first := ident 0 (by decide)
    rw [add_zero] at first
    rw [loader_CheckHeader, machine, first, ident 1 (by decide), ident 2 (by decide),
      ident 3 (by decide), ident 4 (by decide)]
    decide
  · rw [phoff, phnum]
    decide
  · intro i less
    obtain rfl : i = 0 := by omega
    rw [header, load]
    decide
  · intro i loads
    rw [only i loads, segment]
    exact ⟨by decide, by decide, by decide, by decide, .inl (by decide), by decide, by decide⟩
  · intro i j first second differ
    exact absurd ((only i first).trans (only j second).symm) differ
  · rw [phnum, segmentPages, segmentPages, header, if_pos load, segment]
    decide

theorem smallElf_opened : ∃ (fs : VFS) (vn : VNode) (root : Nat) (roots fixed : List Nat) (s : Loading),
    Space roots fixed root s.frames ∧ Apart fixed 0 (BLOCKSIZE * CACHEENTRIES) ∧
      Volume 0 emptyGeometry fs s.io.cache ∧ Opened emptyGeometry fs s.io.cache vn (2 * BLOCKSIZE) ∧
      (∃ e < CACHEENTRIES, (s.io.cache.entry e).refCount = 0) ∧
      bnSize (image s.io.cache emptyGeometry.disk) (2 * BLOCKSIZE) = 1 ∧
      (∀ k < HEADER_LENGTH, s.memory (BLOCKSIZE * CACHEENTRIES + k) = smallElf k) ∧
      s.frames.freeList.length = 98 := by
  -- a file of one byte
  obtain ⟨fs, vn, m, _, volume, opened, free, images⟩ := emptyImage_volume
  have disk : image m emptyGeometry.disk = emptyImage := images
  have empty : bnSize (image m emptyGeometry.disk) (2 * BLOCKSIZE) = 0 := by
    rw [disk]
    decide
  have above : ∀ address, BLOCKSIZE * CACHEENTRIES ≤ address → Outside 0 address := by
    intro address low
    right
    omega
  have mounted : Volume 0 emptyGeometry fs (IoState.mk m []).cache := volume
  obtain ⟨io, _, volume', steady, _, stored⟩ := o2fs_Write_stores mounted opened le_rfl
    (show 0 + 1 ≤ 64 * BLOCKSIZE by decide) free (by
      show (emptySlots (image m emptyGeometry.disk) _ (blockCeil (bnSize _ _)) _).card ≤ _
      rw [empty, disk]
      decide) (fun address low _ => above address low)
  have size := stored.size
  -- a new process
  obtain ⟨k, created⟩ : ∃ k, apply (plainKernel 100) .newAS = some k := ⟨_, rfl⟩
  obtain ⟨root, space, left⟩ := (plainKernel_started (by decide)).owned.newSpace created (by
    intro pg member
    exact lt_trans (plainKernel_free member).2 (by decide))
  have ready : Ready 0 emptyGeometry fs vn (2 * BLOCKSIZE) ⟨k.frames, io, 0⟩ ⟨k.frames, io, 0⟩ :=
    Ready.refl volume' (opened.keep steady.kept) (steady.free free)
  have apart : Apart k.fixed 0 (BLOCKSIZE * CACHEENTRIES) := by
    refine ⟨fun pg _ _ o _ => ⟨above _ ?_, fun i short => ?_⟩, fun i _ => above _ (Nat.le_add_right _ _),
      by decide⟩
    · exact Nat.le_trans (by decide) (Nat.le_add_left MEM_DIRECTMAP_BASE _)
    · have low : BLOCKSIZE * CACHEENTRIES + HEADER_LENGTH ≤ MEM_DIRECTMAP_BASE := by decide
      unfold DMPA2VA
      omega
  have outside : ∀ address, ¬ Outside 0 address → copyBytes io.cache.memory (BLOCKSIZE * CACHEENTRIES)
      smallElf 0 HEADER_LENGTH address = io.cache.memory address := by
    intro address cached
    refine copyBytes_outside _ _ _ _ _ _ (.inl ?_)
    by_contra high
    exact cached (above address (by omega))
  have loaded := ready.store outside
  have total : (plainKernel 100).frames.freeList.length = 100 := by decide
  refine ⟨fs, vn, root, _, _, _, space, apart, loaded.volume, loaded.opened, loaded.free, ?_, ?_, ?_⟩
  · rw [loaded.images]
    show bnSize (image io.cache emptyGeometry.disk) (2 * BLOCKSIZE) = 1
    rw [size]
    show max (bnSize (image m emptyGeometry.disk) (2 * BLOCKSIZE)) (0 + 1) = 1
    rw [empty]
    rfl
  · intro i short
    show copyBytes io.cache.memory (BLOCKSIZE * CACHEENTRIES) smallElf 0 HEADER_LENGTH _ = _
    rw [copyBytes_offset _ _ _ _ _ _ short, zero_add]
  · show k.frames.freeList.length = 98
    omega

theorem loader_load_image_small :
    ∃ vn root s t, loader_Load root vn (BLOCKSIZE * CACHEENTRIES) s = some (true, t) ∧
      t.entrypoint = 0x400FFF ∧ ∃ pa, pMap_Translate root (0x400FFF + 4999) t.frames = some pa ∧
        t.memory (DMPA2VA pa) = 0 := by
  obtain ⟨fs, vn, root, roots, fixed, s, space, apart, volume, opened, unreferenced, one, copied, free⟩ :=
    smallElf_opened
  obtain ⟨executable, loads, entry, segment, pages⟩ := smallElf_executable copied
  rw [← one] at executable
  obtain ⟨enough, loading⟩ := loader_load_image space apart volume opened unreferenced executable
  obtain ⟨t, ran, start, bytes, _⟩ := loading (enough (by rw [pages, free]; decide))
  obtain ⟨pa, translated, zero⟩ := (bytes 0 loads).1 4999 (by rw [segment]; decide)
  refine ⟨vn, root, s, t, ran, start.trans entry, pa, ?_, ?_⟩
  · rw [segment] at translated
    exact translated
  · rw [segment] at zero
    exact zero

end BoringOs.Loader
