import BoringOs.LoaderLoad

/-! `Loader_Load` of an executable that is not to be trusted: what its headers must not say, and
what happens where they say it. -/

namespace BoringOs.Loader

open ByteMemory BufCache O2fs PAlloc PMap Option

/-- The page tables of the other processes, the kernel's half of all of them and the kernel's own pages
are as they were. -/
structure Confined (roots fixed : List Nat) (root : Nat) (s t : Frames) : Prop where
  kept : Kept roots fixed s t
  others : ∀ other ∈ roots, other ≠ root → ∀ va < MEM_USERSPACE_TOP,
    entryAt t other va = entryAt s other va

/-- Outside the cache, only bytes of pages of the process have changed. -/
def WritesInside (bufBase root : Nat) (frames : Frames) (s t : Loading) : Prop :=
  ∀ address, Outside bufBase address →
    (∀ va, UserMapped frames root va → address ≠ placeOf frames root va) →
    t.memory address = s.memory address

section

variable {roots fixed : List Nat} {root buf size : Nat} {s t u : Frames}

theorem Confined.refl (roots fixed : List Nat) (root : Nat) (s : Frames) : Confined roots fixed root s s :=
  ⟨Kept.refl _ _ _, fun _ _ _ _ _ => rfl⟩

theorem Confined.trans (first : Confined roots fixed root s t) (second : Confined roots fixed root t u) :
    Confined roots fixed root s u := by
  refine ⟨first.kept.trans second.kept, fun other member differs va user => ?_⟩
  calc entryAt u other va = entryAt t other va := second.others other member differs va user
    _ = entryAt s other va := first.others other member differs va user

theorem allocMap_confined (space : Space roots fixed root s) {virt len : Nat}
    (aligned : virt % PGSIZE = 0) (few : pagesOf len ≤ 2 ^ 19)
    (below : virt + pagesOf len * PGSIZE ≤ MEM_USERSPACE_TOP)
    (ran : pMap_AllocMap root virt len PTE_W s = some t) : Confined roots fixed root s t := by
  rw [pMap_AllocMap_eachPage aligned few] at ran
  have mapped := eachPage_maps space.rooted
    (fun i s t table inv user found ran => putAlloc_puts (k := i) inv space.rooted user found ran)
    (pagesOf len) 0 s t (by omega) (by rwa [zero_add]) space.inv.shallow ran
  refine ⟨mapped.kept, fun other member differs va user => ?_⟩
  exact mapped.others other member va user (fun same => absurd same differs)

theorem Segment.Loadable.mapSegment_confined {seg : Segment} (loadable : seg.Loadable size)
    (space : Space roots fixed root s) (ran : Loader.mapSegment root seg s = some t) :
    Confined roots fixed root s t := by
  obtain ⟨aligned, length, few, _, below⟩ := loadable.range
  rw [Loader.mapSegment, aligned, length] at ran
  exact allocMap_confined space (Nat.mul_mod_left _ _) few below ran

theorem mapSegments_confined {start : Loading} (harmless : Harmless start.memory buf size) :
    ∀ left i s t, i + left = e_phnum start.memory buf → s.io = start.io →
      Space roots fixed root s.frames →
      mapSegments root (buf + e_phoff start.memory buf) left i s = some t →
      Confined roots fixed root s.frames t.frames := by
  intro left
  induction left with
  | zero =>
    intro i s t _ _ _ ran
    cases ran
    exact Confined.refl ..
  | succ left ih =>
    intro i s t all same space ran
    rw [mapSegments_succ harmless same (by omega)] at ran
    by_cases load : p_type start.memory (headerAt start.memory buf i) = PT_LOAD
    · have loadable := harmless.loadable i ⟨by omega, load⟩
      rw [if_pos load] at ran
      obtain ⟨frames, here, ran⟩ := bind_eq_some_iff.mp ran
      have rest := ih (i + 1) { s with frames := frames } t (by omega) same
        (loadable.mapSegment space here).1 ran
      exact (loadable.mapSegment_confined space here).trans rest
    · rw [if_neg load] at ran
      exact ih (i + 1) s t (by omega) same space ran

end

section

variable {bufBase buf : Nat} {g : Geometry} {fs : VFS} {vn : VNode} {f root : Nat}
  {roots fixed : List Nat}

theorem loadSegments_inside (start : Loading) (space : Space roots fixed root start.frames)
    (apart : Apart fixed bufBase buf)
    (harmless : Harmless start.memory buf (bnSize (image start.io.cache g.disk) f))
    (mapped : ∀ h, Loads start.memory buf h → (segmentAt start.memory buf h).Mapped start.frames root) :
    ∀ left i s, i + left = e_phnum start.memory buf → Ready bufBase g fs vn f start s →
      (∀ k < HEADER_LENGTH, s.memory (buf + k) = start.memory (buf + k)) →
      ∃ t, loadSegments root vn (buf + e_phoff start.memory buf) left i s = some t ∧
        Ready bufBase g fs vn f start t ∧ WritesInside bufBase root start.frames s t := by
  intro left
  induction left with
  | zero =>
    intro i s _ ready _
    exact ⟨s, rfl, ready, fun _ _ _ => rfl⟩
  | succ left ih =>
    intro i s all ready header
    obtain ⟨t, ran, ready', header', _, elsewhere⟩ :=
      harmless.fill space apart mapped (show i < _ by omega) ready header
    obtain ⟨u, rest, final, inside⟩ := ih (i + 1) t (by omega) ready' header'
    refine ⟨u, ?_, final, fun address outside away => ?_⟩
    · rw [loadSegments]
      unfold headerAt at ran
      rw [ran, bind_some]
      exact rest
    · rw [inside address outside away]
      refine elsewhere address outside (fun loads j less => ?_)
      exact away _ (harmless.mapped mapped loads less)

/-- If the headers of an executable are in the bytes that the loader is given, none of them is
`PT_DYNAMIC` and every segment is below the top of the process, not shorter in memory than in the file,
inside the file and off the stack, then `Loader_Load` reads no header elsewhere, returns true when there
is memory for the pages, leaves the kernel and all other processes alone, and writes outside the cache
only to pages of the process. -/
theorem loader_Load_contained {s : Loading} (space : Space roots fixed root s.frames)
    (apart : Apart fixed bufBase buf) (volume : Volume bufBase g fs s.io.cache)
    (opened : Opened g fs s.io.cache vn f)
    (unreferenced : ∃ e < CACHEENTRIES, (s.io.cache.entry e).refCount = 0)
    (harmless : Harmless s.memory buf (bnSize (image s.io.cache g.disk) f))
    (enough : 4 * (segmentPages s.memory buf (e_phnum s.memory buf) 0 + 16) ≤ s.frames.freeList.length) :
    (∀ i < e_phnum s.memory buf, ∀ o < PHDR_SIZE, ∃ k < HEADER_LENGTH,
      headerAt s.memory buf i + o = buf + k) ∧
    ∃ t, loader_Load root vn buf s = some (true, t) ∧ Confined roots fixed root s.frames t.frames ∧
      WritesInside bufBase root t.frames s t ∧ image t.io.cache g.disk = image s.io.cache g.disk := by
  refine ⟨fun i less => harmless.header_inside less, ?_⟩
  have phdr : add64 buf (e_phoff s.memory buf) = buf + e_phoff s.memory buf := by
    have headers := harmless.headers
    have pointer := apart.pointer
    exact add64_of_lt (by omega)
  obtain ⟨frames, allocated⟩ := mapImage_ends space harmless enough
  obtain ⟨⟨mid, io, entry⟩, ran, stacked⟩ := bind_eq_some_iff.mp allocated
  have confined := mapSegments_confined harmless _ 0 s _ (Nat.zero_add _) rfl space ran
  obtain ⟨same, space', mapped, _⟩ := mapSegments_maps harmless _ 0 s _ (Nat.zero_add _) rfl space
    (fun _ less => absurd less (Nat.not_lt_zero _)) ran
  dsimp only at same space' mapped stacked confined
  subst same
  obtain ⟨space'', _, kept, _⟩ := space'.allocMap (by decide) (by decide) (by decide) stacked
  have mapped' : ∀ h, Loads s.memory buf h → (segmentAt s.memory buf h).Mapped frames root := by
    intro h loads va inside
    exact kept va ((harmless.loadable h loads).user inside) (mapped h loads va inside)
  obtain ⟨t, filled, ready, inside⟩ := loadSegments_inside ⟨frames, s.io, entry⟩ space'' apart harmless
    mapped' _ 0 ⟨frames, s.io, entry⟩ (zero_add _) (Ready.refl volume opened unreferenced)
    (fun _ _ => rfl)
  have sameFrames : t.frames = frames := ready.frames
  refine ⟨{ t with entrypoint := e_entry t.memory buf }, ?_, ?_, ?_, ready.images⟩
  · unfold loader_Load
    rw [phdr, if_pos harmless.valid, ran, bind_some, stacked, bind_some]
    exact congrArg (Option.map _) filled
  · rw [show Loading.frames _ = frames from sameFrames]
    exact confined.trans (allocMap_confined space' (by decide) (by decide) (by decide) stacked)
  · intro address outside away
    rw [show Loading.frames _ = frames from sameFrames] at away
    change t.io.cache.memory address = s.io.cache.memory address
    exact inside address outside away

end

theorem loader_Load_contained_small :
    ∃ vn root roots fixed s t, loader_Load root vn (BLOCKSIZE * CACHEENTRIES) s = some (true, t) ∧
      Confined roots fixed root s.frames t.frames ∧ WritesInside 0 root t.frames s t := by
  obtain ⟨fs, vn, root, roots, fixed, s, space, apart, volume, opened, unreferenced, one, copied, free⟩ :=
    smallElf_opened
  obtain ⟨executable, _, _, _, pages⟩ := smallElf_executable copied
  rw [← one] at executable
  obtain ⟨_, t, ran, confined, inside, _⟩ := loader_Load_contained space apart volume opened unreferenced
    executable.harmless (by rw [pages, free]; decide)
  exact ⟨vn, root, roots, fixed, s, t, ran, confined, inside⟩

def hostileElf (header : List (Nat × UInt8)) : Memory := fun place =>
  (List.lookup place ([(0, ELFMAG0), (1, ELFMAG1), (2, ELFMAG2), (3, ELFMAG3), (4, ELFCLASS64), (18, 62),
    (32, 64), (56, 1)] ++ header)).getD 0

/-- The header says `PT_DYNAMIC`. -/
def dynamicElf : Memory := hostileElf [(64, 2)]

/-- A segment of one byte, all zeros, at `0xFFFF900000000000` in the kernel's half. -/
def kernelElf : Memory := hostileElf [(64, 1), (85, 0x90), (86, 0xFF), (87, 0xFF), (104, 1)]

/-- A file with the bytes of `memory` for a process with root table 0 and a hundred free pages. -/
def hostileLoading (memory : Memory) : Loading where
  frames := (plainKernel 100).frames
  io := ⟨bufCacheInit 0x100000 memory (fun _ _ => 0) (fun _ => 0) (fun _ => 0), []⟩
  entrypoint := 0

def someNode : VNode := ⟨0, 0, ⟨0, 0, 0, 0, fun _ => none⟩⟩

/-- The loader stops the kernel at a dynamic executable, and gives one that asks for it a page in the
kernel's half of its address space. Both pass `Loader_CheckHeader`. -/
theorem loader_Load_not_contained :
    (loader_CheckHeader dynamicElf 0 = true ∧
      loader_Load 0 someNode 0 (hostileLoading dynamicElf) = none) ∧
    loader_CheckHeader kernelElf 0 = true ∧
      ∃ t, loader_Load 0 someNode 0 (hostileLoading kernelElf) = some (true, t) ∧
        (hostileLoading kernelElf).frames.memory 0 288 = 0 ∧ t.frames.memory 0 288 ≠ 0 := by
  have dynamic : (loader_Load 0 someNode 0 (hostileLoading dynamicElf)).isNone = true := by decide
  have kernel : ((loader_Load 0 someNode 0 (hostileLoading kernelElf)).any fun (done, t) =>
      done && t.frames.memory 0 288 != 0) = true := by decide +kernel
  obtain ⟨⟨done, t⟩, ran, fine⟩ := (Option.any_eq_true ..).mp kernel
  rw [Bool.and_eq_true, bne_iff_ne] at fine
  obtain ⟨rfl, changed⟩ := fine
  exact ⟨⟨by decide, isNone_iff_eq_none.mp dynamic⟩, by decide, t, ran,
    by decide, changed⟩

end BoringOs.Loader
