import BoringOs.Loader
import BoringOs.O2fsRun
import BoringOs.Spawn
import BoringOs.Vfs

/-! What `Syscall_Spawn` takes and gives back: pages, processes and threads. How many pages the
slabs take in a call is left open. The references of the current thread and the contents of the
handle table are not part of the model. -/

namespace BoringOs.SpawnResources

open ByteMemory BufCache O2fs PAlloc PMap Loader Vfs Option

structure Kernel where
  frames : Frames
  io : IoState
  processList : List Nat
  nextProcessID : Nat
  childrenList : Nat → List Nat
  threadList : Nat → List Nat
  runnableQueue : List (Nat × Nat)
  /-- The pages of all slabs. -/
  slabPages : Nat

def Kernel.memory (s : Kernel) : Memory := s.io.cache.memory

def pageVA (pg : Nat) : Nat := DMPA2VA (pg * PAlloc.PGSIZE)

/-- `PAlloc_AllocPage`, which does not return `NULL`: without a free page the kernel stops. -/
def Kernel.allocPage (s : Kernel) : Option (Nat × Kernel) :=
  (pAlloc_AllocPage s.frames).map (fun (pg, frames) =>
    (pg, { s with frames := frames, io.cache.memory := Spawn.clearPage s.memory (pageVA pg) }))

/-- `PAlloc_Release` of a page that was written through the direct map. -/
def Kernel.release (pg : Nat) (s : Kernel) : Option Kernel :=
  let words := fun word => loadLE s.memory (pageVA pg + 8 * word) 8
  (pAlloc_Release pg { s.frames with memory := Function.update s.frames.memory pg words }).map
    (fun frames => { s with frames := frames })

def takePages : Nat → Frames → Option Frames
  | 0, s => some s
  | count + 1, s => (pAlloc_AllocPage s).bind (fun (_, t) => takePages count t)

/-- `SlabExtend` by `count` pages. Without them the object is `NULL`, which is used at once. -/
def Kernel.growSlab (count : Nat) (s : Kernel) : Option Kernel :=
  (takePages count s.frames).map (fun frames =>
    { s with frames := frames, slabPages := s.slabPages + count })

/-- What a call finds: the memory of its process, the file system, and the pages by which the slabs
are extended. -/
structure Env where
  user : User.Memory
  cur : Nat
  systemRoot : Nat
  rootFS : VFS
  root : Option VNode
  vnodePages : Nat
  processPages : Nat
  threadPages : Nat
  handlePages : Nat

/-- The arguments are copied to `kargBuffer`. -/
def stageArgs (env : Env) (user_argv karg : Nat) (s : Kernel) : Option (Int × Kernel) :=
  (Spawn.stageLoop env.user user_argv 8 0 (pageVA karg + 64) ⟨pageVA karg, pageVA karg, s.memory⟩).map
    (fun (ret, pages) => (ret, { s with io.cache.memory := pages.memory }))

/-- `VFS_Lookup`, when it finds the file. -/
def resolve (env : Env) (path : List UInt8) (s : Kernel) : Option (VNode × Kernel) :=
  match vfs_Lookup env.rootFS env.root path s.io.cache with
  | some (some vn, cache) => some (vn, { s with io.cache := cache })
  | _ => none

def o2fs_Open (_fn : VNode) : Int := 0

def taken (s t : Frames) : List Nat := s.freeList.filter (fun pg => pg ∉ t.freeList)

/-- The process and its thread, their handles, the image and the arguments, with the pages that were
allocated for the process. -/
def createChild (env : Env) (vn : VNode) (karg elf : Nat) (s : Kernel) :
    Option (Nat × List Nat × Kernel) := do
  -- Process_Create
  let s₁ ← s.growSlab env.processPages
  let pid := s₁.nextProcessID
  let ((_, root), frames₁) ← pMap_NewAS env.systemRoot s₁.frames
  let s₂ := { s₁ with
    frames := frames₁
    nextProcessID := pid + 1
    childrenList := Function.update s₁.childrenList env.cur (s₁.childrenList env.cur ++ [pid])
    processList := s₁.processList ++ [pid] }
  -- Thread_Create
  let s₃ ← s₂.growSlab env.threadPages
  let (_, frames₃) ← pAlloc_AllocPage s₃.frames
  let s₄ := { s₃ with
    frames := frames₃
    threadList := Function.update s₃.threadList pid (s₃.threadList pid ++ [0]) }
  -- Console_OpenHandle
  let s₅ ← s₄.growSlab env.handlePages
  let (_, loaded) ← loader_Load root vn (pageVA elf) ⟨s₅.frames, s₅.io, 0⟩
  let pa ← pMap_Translate root Spawn.argPageUserVA loaded.frames
  let pages ← Spawn.buildArgs ⟨pageVA karg, DMPA2VA pa, loaded.memory⟩
  return (pid, taken s₁.frames frames₁ ++ taken s₃.frames frames₃ ++ taken s₅.frames loaded.frames,
    { s₅ with
      frames := loaded.frames
      io := { loaded.io with cache.memory := pages.memory }
      runnableQueue := s₅.runnableQueue ++ [(pid, 0)] })

inductive Outcome where
  /-- A failed `ASSERT`, or a fault of the kernel, with a path that resolves or before it is looked up. -/
  | stopped
  /-- The path does not resolve: `VFS_Lookup` stops at a vnode that is `NULL`, or `fn->op` of `VFS_Open` is
  read through its result. -/
  | missing
  | failed (code : Int) (s : Kernel)
  | spawned (pid : Nat) (pages : List Nat) (s : Kernel)

def Outcome.ofFailure (code : Int) : Option Kernel → Outcome
  | none => .stopped
  | some s => .failed code s

/-- `Syscall_Spawn` from the first 1024 bytes of the file on. -/
def runProgram (env : Env) (vn : VNode) (karg elf : Nat) (s : Kernel) : Outcome :=
  if o2fs_Open vn < 0 then .ofFailure EINVAL ((s.release elf).bind (Kernel.release karg))
  else
    match o2fs_Read vn (pageVA elf) 0 1024 s.io with
    | none => .stopped
    | some (_, io) =>
      if loader_CheckHeader io.cache.memory (pageVA elf) = false then
        .ofFailure EINVAL ((Kernel.release elf { s with io := io }).bind (Kernel.release karg))
      else
        match createChild env vn karg elf { s with io := io } with
        | none => .stopped
        | some (pid, pages, t) => .spawned pid pages t

/-- `Syscall_Spawn` from the allocation of `elfHdrPage` on. -/
def spawnProgram (env : Env) (exeName : List UInt8) (karg : Nat) (s : Kernel) : Outcome :=
  match s.allocPage with
  | none => .stopped
  | some (elf, s) =>
    match resolve env exeName s with
    | none => .missing
    | some (vn, s) =>
      match s.growSlab env.vnodePages with
      | none => .stopped
      | some s => runProgram env vn karg elf s

def syscall_Spawn (env : Env) (user_path user_argv : Nat) (s : Kernel) : Outcome :=
  let (ret, exeName) := User.copy_StrIn env.user user_path 512
  if ret ≠ 0 then .failed ret s
  else
    match s.allocPage with
    | none => .stopped
    | some (karg, s) =>
      match stageArgs env user_argv karg s with
      | none => .stopped
      | some (ret, s) =>
        if ret ≠ 0 then .ofFailure ret (s.release karg)
        else spawnProgram env (exeName.takeWhile (· ≠ 0)) karg s

structure Holding (s t : Kernel) (held : List Nat) : Prop where
  lists : t.processList = s.processList ∧ t.childrenList = s.childrenList ∧
    t.threadList = s.threadList ∧ t.runnableQueue = s.runnableQueue
  counted : t.frames.freePages = t.frames.freeList.length
  grown : s.slabPages ≤ t.slabPages
  balance : t.frames.freePages + held.length + (t.slabPages - s.slabPages) = s.frames.freePages
  distinct : held.Nodup
  once : ∀ pg ∈ held, t.frames.refCount pg = 1

variable {held pages : List Nat} {root pg count elf karg user_path user_argv virt vaddr len flags pid : Nat}
variable {env : Env} {code : Int} {vn : VNode} {path exe : List UInt8}

section

variable {s t u : Kernel}

theorem Holding.start (counted : s.frames.freePages = s.frames.freeList.length) : Holding s s [] :=
  ⟨⟨rfl, rfl, rfl, rfl⟩, counted, le_refl _, by simp, List.nodup_nil, by simp⟩

theorem Holding.io (holding : Holding s t held) (io : IoState) : Holding s { t with io := io } held :=
  ⟨holding.lists, holding.counted, holding.grown, holding.balance, holding.distinct, holding.once⟩

theorem pAlloc_AllocPage_counts {frames next : Frames} (ran : pAlloc_AllocPage frames = some (pg, next))
    (counted : frames.freePages = frames.freeList.length) :
    next.freePages = next.freeList.length ∧ next.freePages + 1 = frames.freePages := by
  have allocated := pAlloc_AllocPage_allocates ran
  have length := congrArg List.length allocated.head
  have less := allocated.counts.1
  rw [List.length_cons] at length
  omega

theorem Holding.alloc (holding : Holding s t held) (ran : t.allocPage = some (pg, u)) :
    Holding s u (pg :: held) := by
  obtain ⟨⟨_, frames⟩, allocated, same⟩ := map_eq_some_iff.mp ran
  cases same
  have counts := pAlloc_AllocPage_counts allocated holding.counted
  have spec := pAlloc_AllocPage_allocates allocated
  have balance := holding.balance
  have fresh : pg ∉ held := by
    intro already
    have used := holding.once pg already
    rw [spec.unused] at used
    exact absurd used (by decide)
  refine ⟨holding.lists, counts.1, holding.grown, ?_, List.nodup_cons.mpr ⟨fresh, holding.distinct⟩, ?_⟩
  · show frames.freePages + (held.length + 1) + (t.slabPages - s.slabPages) = s.frames.freePages
    omega
  · intro x member
    show frames.refCount x = 1
    rw [spec.refCount]
    by_cases same : x = pg
    · rw [same, Function.update_self]
    · rw [Function.update_of_ne same]
      exact holding.once x ((List.mem_cons.mp member).resolve_left same)

theorem Holding.release (holding : Holding s t (pg :: held)) (ran : t.release pg = some u) :
    Holding s u held := by
  obtain ⟨frames, released, same⟩ := map_eq_some_iff.mp ran
  cases same
  have one := holding.once pg List.mem_cons_self
  have counted := holding.counted
  have balance := holding.balance
  rw [List.length_cons] at balance
  simp only [pAlloc_Release, pAllocFreePage, one, ne_eq, one_ne_zero, not_false_eq_true, if_true,
    Nat.sub_self] at released
  split at released
  · cases released
    refine ⟨holding.lists, ?_, holding.grown, ?_, (List.nodup_cons.mp holding.distinct).2, ?_⟩
    · show t.frames.freePages + 1 = (pg :: t.frames.freeList).length
      rw [List.length_cons]
      omega
    · show t.frames.freePages + 1 + held.length + (t.slabPages - s.slabPages) = s.frames.freePages
      omega
    · intro x member
      have other : x ≠ pg := by
        rintro rfl
        exact (List.nodup_cons.mp holding.distinct).1 member
      show Function.update t.frames.refCount pg 0 x = 1
      rw [Function.update_of_ne other]
      exact holding.once x (List.mem_cons_of_mem _ member)
  · cases released

theorem takePages_counts {frames next : Frames} (ran : takePages count frames = some next)
    (counted : frames.freePages = frames.freeList.length) :
    next.freePages = next.freeList.length ∧ next.freePages + count = frames.freePages ∧
      ∀ x, frames.refCount x ≠ 0 → next.refCount x = frames.refCount x := by
  induction count generalizing frames with
  | zero =>
    cases ran
    exact ⟨counted, rfl, fun _ _ => rfl⟩
  | succ count ih =>
    obtain ⟨⟨page, middle⟩, allocated, rest⟩ := bind_eq_some_iff.mp ran
    have counts := pAlloc_AllocPage_counts allocated counted
    have spec := pAlloc_AllocPage_allocates allocated
    obtain ⟨final, sum, kept⟩ := ih rest counts.1
    refine ⟨final, by omega, fun x used => ?_⟩
    have other : x ≠ page := by
      rintro rfl
      exact used spec.unused
    have same : middle.refCount x = frames.refCount x := by
      rw [spec.refCount, Function.update_of_ne other]
    rw [kept x (by rwa [same]), same]

theorem Holding.grow (holding : Holding s t held) (ran : t.growSlab count = some u) :
    Holding s u held := by
  obtain ⟨frames, grew, same⟩ := map_eq_some_iff.mp ran
  cases same
  obtain ⟨counted, sum, kept⟩ := takePages_counts grew holding.counted
  have grown := holding.grown
  have balance := holding.balance
  refine ⟨holding.lists, counted, Nat.le_add_right_of_le grown, ?_, holding.distinct, ?_⟩
  · show frames.freePages + held.length + (t.slabPages + count - s.slabPages) = s.frames.freePages
    omega
  · intro x member
    have one := holding.once x member
    exact (kept x (by omega)).trans one

theorem Holding.stage {ret : Int} (holding : Holding s t held)
    (ran : stageArgs env user_argv karg t = some (ret, u)) : Holding s u held := by
  obtain ⟨⟨code, pages⟩, _, same⟩ := map_eq_some_iff.mp ran
  cases same
  exact holding.io _

theorem Holding.both (holding : Holding s t [elf, karg])
    (ran : (t.release elf).bind (Kernel.release karg) = some u) : Holding s u [] := by
  obtain ⟨v, first, second⟩ := bind_eq_some_iff.mp ran
  exact (holding.release first).release second

end

/-! Success. Nothing on the way gives a page back, so the free list only gets shorter. -/

section

variable {s t : Frames}

end

section

variable {s t : Loading} {piece : Nat → Nat → Nat → Loading → Option Loading}

end

section

variable {s t u : Kernel}

/-- The call returns an error without a new page in a slab, or does not return. -/
def Quiet (s : Kernel) : Outcome → Prop
  | .stopped => True
  | .failed _ t => t.slabPages = s.slabPages
  | _ => False

/-- The path and the arguments are copied in, and there are pages for the arguments and the header. -/
def Staged (env : Env) (user_path user_argv : Nat) (s : Kernel) (karg elf : Nat) (t : Kernel) : Prop :=
  (User.copy_StrIn env.user user_path 512).1 = 0 ∧ ∃ u v, s.allocPage = some (karg, u) ∧
    stageArgs env user_argv karg u = some (0, v) ∧ v.allocPage = some (elf, t)

def exeName (env : Env) (user_path : Nat) : List UInt8 :=
  (User.copy_StrIn env.user user_path 512).2.takeWhile (· ≠ 0)

end

/-! A machine with forty free pages and the program `/a`, an ELF header without segments. -/

/-- The pages that are gone after a success and do not belong to the process. -/
def Outcome.lost (s : Kernel) : Outcome → Option (List Nat)
  | .spawned _ pages t => some ((taken s.frames t.frames).filter (· ∉ pages))
  | _ => none

end BoringOs.SpawnResources
