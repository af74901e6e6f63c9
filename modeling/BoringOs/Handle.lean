import BoringOs.Copy
import BoringOs.Lib.Linked
import BoringOs.Lib.Runs
import Mathlib.Data.List.Perm.Subperm

/-! The descriptor tables of the processes, after `sys/kern/handle.c`, `sys/kern/slab.c`,
`sys/kern/vfsuio.c`, `sys/dev/console.c` and `sys/kern/syscall.c`. Handles are objects at addresses,
zero is `NULL`. While a handle is in the slab, its first two words, `fd` and `type`, are the links
of the free list. The back links of the hash chains are never read, and left out. -/

namespace BoringOs.Handles

open Runs LinkedList Function List Option

def PROCESS_HANDLE_SLOTS : Nat := 128

def HANDLE_TYPE_FILE : Nat := 1

inductive Ops where
  | console
  | file
  deriving DecidableEq

structure Handle where
  fd : Nat
  type : Nat
  processId : Nat
  vnode : Nat
  next : Nat
  ops : Ops

/-- `handleSlab` and its memory region, down to the links in the objects, which `Slabs` leaves out: here
they share the words of a handle. -/
structure Slab where
  address : Nat
  base : Nat
  maxLength : Nat
  length : Nat
  freeList : Nat
  objs : Nat
  freeObjs : Nat

structure Process where
  nextFD : Nat
  handles : Nat → Nat
  opened : List Nat

structure State where
  handle : Nat → Handle
  slab : Slab
  process : Nat → Process
  free : List Nat

def State.setHandle (s : State) (a : Nat) (change : Handle → Handle) : State :=
  { s with handle := Function.update s.handle a (change (s.handle a)) }

def State.setProcess (s : State) (pid : Nat) (proc : Process) : State :=
  { s with process := Function.update s.process pid proc }

/-- `LIST_INSERT_HEAD` on the free list. -/
def insertFree (elem : Nat) (s : State) : State :=
  let first := s.slab.freeList
  let s := s.setHandle elem (fun h => { h with fd := first })
  let s := if first ≠ 0 then s.setHandle first (fun h => { h with type := elem }) else s
  let s := s.setHandle elem (fun h => { h with type := s.slab.address })
  { s with slab := { s.slab with freeList := elem }, free := elem :: s.free }

/-- `LIST_REMOVE` of the first element of the free list. -/
def removeFree (elem : Nat) (s : State) : State :=
  let next := (s.handle elem).fd
  let prev := (s.handle elem).type
  let s := if next ≠ 0 then s.setHandle next (fun h => { h with type := prev }) else s
  { s with slab := { s.slab with freeList := next }, free := s.free.erase elem }

/-- `sizeof(Handle)`, which is a multiple of the alignment. -/
def realObjSz : Nat := 80

def extendInc : Nat := max ((realObjSz * 64 + 4095) / 4096 * 4096) (4 * 4096)

def extendObjs : Nat := extendInc / realObjSz

/-- The loop of `SlabExtend` over the first `count` objects. -/
def insertObjs (start : Nat) : Nat → State → State
  | 0, s => s
  | count + 1, s => insertFree (start + count * realObjSz) (insertObjs start count s)

/-- `XMem_Allocate` of a longer region. -/
def lengthen (s : State) : State :=
  { s with slab := { s.slab with length := s.slab.length + extendInc } }

def countObjs (s : State) : State :=
  { s with slab := { s.slab with
      objs := s.slab.objs + extendObjs
      freeObjs := s.slab.freeObjs + extendObjs } }

def slabExtend (s : State) : State :=
  if s.slab.maxLength < s.slab.length + extendInc then s
  else countObjs (insertObjs (s.slab.base + s.slab.length) extendObjs (lengthen s))

def handle_Alloc (s : State) : Nat × State :=
  let s := if s.slab.freeObjs = 0 then slabExtend s else s
  let elem := s.slab.freeList
  if elem ≠ 0 then
    let s := removeFree elem s
    (elem, { s with slab := { s.slab with freeObjs := s.slab.freeObjs - 1 } })
  else (0, s)

def handle_Free (elem : Nat) (s : State) : State :=
  let s := insertFree elem s
  { s with slab := { s.slab with freeObjs := s.slab.freeObjs + 1 } }

def handle_Add (pid : Nat) (handle : Nat) (s : State) : Nat × State :=
  let proc := s.process pid
  let fd := proc.nextFD
  let slot := fd % PROCESS_HANDLE_SLOTS
  let s := s.setHandle handle (fun h =>
    { h with fd := fd, processId := pid, next := proc.handles slot })
  (fd, s.setProcess pid { proc with
    nextFD := add64 proc.nextFD 1
    handles := Function.update proc.handles slot handle })

/-- The walk of `Handle_Lookup` along a chain: the handles it looks at, and its result. -/
def lookupLoop (s : State) (fd : Nat) : Nat → Nat → Option (List Nat × Nat)
  | 0, _ => none
  | fuel + 1, handle =>
    if handle = 0 then some ([], 0)
    else if (s.handle handle).fd = fd then some ([handle], handle)
    else (lookupLoop s fd fuel (s.handle handle).next).map (fun walk => (handle :: walk.1, walk.2))

def walkLimit : Nat := 2 ^ 27

def handle_Lookup (s : State) (pid : Nat) (fd : Nat) : Option (List Nat × Nat) :=
  lookupLoop s fd walkLimit ((s.process pid).handles (fd % PROCESS_HANDLE_SLOTS))

def toResult (status : Int) : Nat := (status % 2 ^ 64).toNat

def console_OpenHandle (s : State) : Nat × State :=
  let (handle, s) := handle_Alloc s
  if handle = 0 then (0, s) else (handle, s.setHandle handle (fun h => { h with ops := .console }))

/-- `VFS_Open` and `VFS_Close`, which are `O2FS_Open` and `O2FS_Close`. -/
def vfs_Open (_vnode : Nat) : Int := 0

def vfs_Close (_vnode : Nat) : Int := 0

/-- `VFSUIO_Open`; `vnode` is what `VFS_Lookup` finds. -/
def vfsuio_Open (vnode : Option Nat) (s : State) : Int × Nat × State :=
  let (hdl, s) := handle_Alloc s
  if hdl = 0 then (-ENOMEM, 0, s)
  else
    match vnode with
    | none => (-ENOENT, 0, handle_Free hdl s)
    | some vn =>
      if vfs_Open vn ≠ 0 then (vfs_Open vn, 0, handle_Free hdl s)
      else
        (0, hdl, s.setHandle hdl (fun h =>
          { h with vnode := vn, type := HANDLE_TYPE_FILE, ops := .file }))

def devPath : List UInt8 := "/dev/".toUTF8.data.toList

def consolePath : List UInt8 := "/dev/console".toUTF8.data.toList

def syscall_Open (pid : Nat) (user : User.Memory) (user_path : Nat) (vnode : Option Nat) (s : State) :
    Option (Nat × State) :=
  let (status, bytes) := User.copy_StrIn user user_path 256
  if status ≠ 0 then some (toResult status, s)
  else
    let path := bytes.takeWhile (· ≠ 0)
    if path.take 5 = devPath then
      if path = consolePath then
        let (handle, s) := console_OpenHandle s
        -- `Handle_Add` of a null pointer is a page fault in the kernel.
        if handle = 0 then none else some (handle_Add pid handle s)
      else some (toResult (-ENOENT), s)
    else
      let (status, handle, s) := vfsuio_Open vnode s
      if status ≠ 0 then some (toResult status, s) else some (handle_Add pid handle s)

/-- `Console_Close` and `VFSUIO_Close`. -/
def closeHandle (handle : Nat) (s : State) : Option (Int × State) :=
  match (s.handle handle).ops with
  | .console => some (0, handle_Free handle s)
  | .file =>
    if (s.handle handle).type = HANDLE_TYPE_FILE then
      some (vfs_Close (s.handle handle).vnode, handle_Free handle s)
    else none

def syscall_Close (pid : Nat) (fd : Nat) (s : State) : Option (Nat × State) :=
  match handle_Lookup s pid fd with
  | none => none
  | some (_, handle) =>
    if handle = 0 then some (toResult (-EBADF), s)
    else (closeHandle handle s).map (fun (status, s) => (toResult status, s))

/-- What `Syscall_Read`, `Syscall_Write` and `Syscall_Flush` do with the tables. -/
def syscall_Io (pid : Nat) (fd : Nat) (s : State) : Option State :=
  match handle_Lookup s pid fd with
  | none => none
  | some (_, handle) =>
    if handle = 0 then some s
    else
      match (s.handle handle).ops with
      | .console => some s
      | .file => if (s.handle handle).type = HANDLE_TYPE_FILE then some s else none

inductive Label where
  /-- `Syscall_Spawn` opens the console for a new process. -/
  | preopen (pid : Nat)
  | openPath (pid : Nat) (user : User.Memory) (user_path : Nat) (vnode : Option Nat)
  | close (pid : Nat) (fd : Nat)
  | io (pid : Nat) (fd : Nat)

def State.give (s : State) (pid : Nat) (fd : Nat) : State :=
  s.setProcess pid { s.process pid with opened := fd :: (s.process pid).opened }

def apply (s : State) : Label → Option State
  | .preopen pid =>
    let (handle, s) := console_OpenHandle s
    if handle = 0 then none
    else
      let (fd, s) := handle_Add pid handle s
      some (s.give pid fd)
  | .openPath pid user user_path vnode =>
    match syscall_Open pid user user_path vnode s with
    | none => none
    | some (result, s) => if result < 2 ^ 63 then some (s.give pid result) else some s
  | .close pid fd =>
    match syscall_Close pid fd s with
    | none => none
    | some (_, s) =>
      some (s.setProcess pid { s.process pid with opened := (s.process pid).opened.erase fd })
  | .io pid fd => syscall_Io pid fd s

/-- What the tables promise. -/
structure Good (s : State) : Prop where
  /-- `Handle_Lookup` returns, and finds exactly the open descriptors. -/
  exact : ∀ pid fd, ∃ visited handle, handle_Lookup s pid fd = some (visited, handle) ∧
    (handle ≠ 0 ↔ fd ∈ (s.process pid).opened)
  /-- It never comes to a freed handle. -/
  live : ∀ pid fd visited handle, handle_Lookup s pid fd = some (visited, handle) →
    ∀ a ∈ visited, a ∉ s.free
  /-- Open descriptors are distinct, and no handle has been freed twice. -/
  distinct : ∀ pid, (s.process pid).opened.Nodup
  once : s.free.Nodup

/-- Nothing open is closed, and `Copy_StrIn` accepts the paths. -/
def Guard (s : State) : Label → Prop
  | .openPath _ user user_path _ => (User.copy_StrIn user user_path 256).1 = 0
  | .close pid fd => fd ∉ (s.process pid).opened
  | _ => True

structure Started (s : State) : Prop where
  table : ∀ pid, (s.process pid).nextFD = 0 ∧ (∀ slot, (s.process pid).handles slot = 0) ∧
    (s.process pid).opened = []
  empty : s.slab.freeList = 0 ∧ s.slab.objs = 0 ∧ s.slab.freeObjs = 0 ∧ s.free = []
  region : 0 < s.slab.base ∧ s.slab.length = 0 ∧ s.slab.maxLength = 2 ^ 27

theorem insertFree_links (elem : Nat) (s : State) (x : Nat) :
    ((insertFree elem s).handle x).fd = (if x = elem then s.slab.freeList else (s.handle x).fd) ∧
    ((insertFree elem s).handle x).next = (s.handle x).next := by
  unfold insertFree State.setHandle
  by_cases first : s.slab.freeList = 0
  · by_cases here : x = elem <;> simp [first, here]
  · by_cases here : x = elem
    · by_cases again : elem = s.slab.freeList <;> simp [first, here, again, update_apply]
    · by_cases head : x = s.slab.freeList
      · subst head
        simp [first, here, update_apply]
      · simp [first, here, head]

theorem insertFree_fd (elem : Nat) (s : State) (x : Nat) :
    ((insertFree elem s).handle x).fd = if x = elem then s.slab.freeList else (s.handle x).fd :=
  (insertFree_links elem s x).1

variable {s t : State} {handle pid fd elem : Nat} {chain : Nat → Nat → List Nat}

variable {vnode : Option Nat} {x fuel user_path : Nat} {visited : List Nat} {status : Int} {user : User.Memory}

theorem insertFree_next (elem : Nat) (s : State) (x : Nat) :
    ((insertFree elem s).handle x).next = (s.handle x).next :=
  (insertFree_links elem s x).2

theorem insertFree_handle (other : x ≠ elem)
    (inner : s.slab.freeList ≠ 0 → x ≠ s.slab.freeList) : (insertFree elem s).handle x = s.handle x := by
  unfold insertFree State.setHandle
  by_cases first : s.slab.freeList = 0
  · simp [first, other]
  · simp [first, other, inner first]

theorem insertFree_slab (elem : Nat) (s : State) :
    (insertFree elem s).slab = { s.slab with freeList := elem } := by
  unfold insertFree State.setHandle
  by_cases first : s.slab.freeList = 0 <;> simp [first]

theorem insertFree_process (elem : Nat) (s : State) : (insertFree elem s).process = s.process := by
  unfold insertFree State.setHandle
  by_cases first : s.slab.freeList = 0 <;> simp [first]

theorem insertFree_free (elem : Nat) (s : State) : (insertFree elem s).free = elem :: s.free := by
  unfold insertFree State.setHandle
  by_cases first : s.slab.freeList = 0 <;> simp [first]

theorem removeFree_fd (elem : Nat) (s : State) (x : Nat) :
    ((removeFree elem s).handle x).fd = (s.handle x).fd := by
  unfold removeFree State.setHandle
  by_cases last : (s.handle elem).fd = 0
  · simp [last]
  · by_cases here : x = (s.handle elem).fd <;> simp [last, here]

theorem removeFree_handle (other : (s.handle elem).fd ≠ 0 → x ≠ (s.handle elem).fd) :
    (removeFree elem s).handle x = s.handle x := by
  unfold removeFree State.setHandle
  by_cases last : (s.handle elem).fd = 0
  · simp [last]
  · simp [last, other last]

theorem removeFree_slab (elem : Nat) (s : State) :
    (removeFree elem s).slab = { s.slab with freeList := (s.handle elem).fd } := by
  unfold removeFree State.setHandle
  by_cases last : (s.handle elem).fd = 0 <;> simp [last]

theorem removeFree_process (elem : Nat) (s : State) : (removeFree elem s).process = s.process := by
  unfold removeFree State.setHandle
  by_cases last : (s.handle elem).fd = 0 <;> simp [last]

theorem removeFree_free (elem : Nat) (s : State) : (removeFree elem s).free = s.free.erase elem := by
  unfold removeFree State.setHandle
  by_cases last : (s.handle elem).fd = 0 <;> simp [last]

structure FreeList (s : State) : Prop where
  linked : Linked (fun a => (s.handle a).fd) s.slab.freeList s.free
  nodup : s.free.Nodup
  inside : ∀ a ∈ s.free, a < s.slab.base + s.slab.length

theorem FreeList.first (list : FreeList s) (listed : s.slab.freeList ≠ 0) :
    s.slab.freeList ∈ s.free := by
  have head := list.linked.first_eq
  cases free : s.free with
  | nil =>
    rw [free] at head
    exact absurd head listed
  | cons a rest =>
    rw [free] at head
    rw [head]
    exact mem_cons_self

theorem FreeList.insert (list : FreeList s) (real : elem ≠ 0)
    (new : elem ∉ s.free) (inside : elem < s.slab.base + s.slab.length) :
    FreeList (insertFree elem s) := by
  refine ⟨?_, ?_, ?_⟩
  · rw [insertFree_free, insertFree_slab]
    refine ⟨rfl, real, ?_⟩
    show Linked _ ((insertFree elem s).handle elem).fd s.free
    rw [insertFree_fd, if_pos rfl]
    apply list.linked.congr
    intro a member
    rw [insertFree_fd, if_neg]
    rintro rfl
    exact new member
  · rw [insertFree_free]
    exact list.nodup.cons new
  · intro a member
    rw [insertFree_free] at member
    rw [insertFree_slab]
    rcases mem_cons.mp member with rfl | old
    · exact inside
    · exact list.inside a old

theorem FreeList.remove (list : FreeList s) {rest : List Nat}
    (free : s.free = elem :: rest) : FreeList (removeFree elem s) ∧ (removeFree elem s).free = rest := by
  have tail : (removeFree elem s).free = rest := by
    rw [removeFree_free, free, erase_cons_head]
  have linked := list.linked
  have nodup := list.nodup
  rw [free] at linked nodup
  refine ⟨⟨?_, ?_, ?_⟩, tail⟩
  · rw [tail, removeFree_slab]
    apply linked.2.2.congr
    intro a _
    exact removeFree_fd elem s a
  · rw [tail]
    exact (nodup_cons.mp nodup).2
  · intro a member
    rw [tail] at member
    rw [removeFree_slab]
    exact list.inside a (by rw [free]; exact mem_cons_of_mem _ member)

structure Grows (s t : State) : Prop where
  process : t.process = s.process
  base : t.slab.base = s.slab.base
  maxLength : t.slab.maxLength = s.slab.maxLength
  longer : s.slab.length ≤ t.slab.length
  kept : ∀ x, x ∉ s.free → x < s.slab.base + s.slab.length → t.handle x = s.handle x ∧ x ∉ t.free

theorem Grows.trans {s t u : State} (first : Grows s t) (second : Grows t u) : Grows s u := by
  refine ⟨second.process.trans first.process, second.base.trans first.base,
    second.maxLength.trans first.maxLength, first.longer.trans second.longer, ?_⟩
  intro x outside inside
  obtain ⟨same, still⟩ := first.kept x outside inside
  have longer := first.longer
  obtain ⟨again, final⟩ := second.kept x still (by rw [first.base]; omega)
  exact ⟨again.trans same, final⟩

structure Filled (s : State) (start count : Nat) (t : State) : Prop where
  list : FreeList t
  slab : ∃ first, t.slab = { s.slab with freeList := first }
  process : t.process = s.process
  length : t.free.length = s.free.length + count
  bounded : ∀ a ∈ t.free, a < start + count * realObjSz
  kept : ∀ x, x ∉ s.free → x < start → t.handle x = s.handle x ∧ x ∉ t.free

theorem insertObjs_filled (list : FreeList s) {start : Nat} (positive : 0 < start)
    (below : ∀ a ∈ s.free, a < start) {count : Nat}
    (room : start + count * realObjSz ≤ s.slab.base + s.slab.length) :
    Filled s start count (insertObjs start count s) := by
  induction count with
  | zero =>
    refine ⟨list, ⟨s.slab.freeList, rfl⟩, rfl, rfl, ?_, fun x outside _ => ⟨rfl, outside⟩⟩
    intro a member
    have := below a member
    omega
  | succ count ih =>
    have size : start + (count + 1) * realObjSz = start + count * realObjSz + 80 := by
      unfold realObjSz
      omega
    obtain ⟨inner, ⟨first, slab⟩, process, length, bounded, kept⟩ := ih (by omega)
    have new : start + count * realObjSz ∉ (insertObjs start count s).free := fun member =>
      lt_irrefl _ (bounded _ member)
    refine ⟨?_, ⟨start + count * realObjSz, ?_⟩, ?_, ?_, ?_, ?_⟩
    · refine inner.insert (by omega) new ?_
      rw [slab]
      show start + count * realObjSz < s.slab.base + s.slab.length
      omega
    · rw [insertObjs, insertFree_slab, slab]
    · rw [insertObjs, insertFree_process, process]
    · rw [insertObjs, insertFree_free, length_cons, length]
      omega
    · intro a member
      rw [insertObjs, insertFree_free] at member
      rcases mem_cons.mp member with rfl | old
      · omega
      · have := bounded a old
        omega
    · intro x outside before
      obtain ⟨same, still⟩ := kept x outside before
      rw [insertObjs, insertFree_free, mem_cons, not_or]
      have other : x ≠ start + count * realObjSz := by omega
      refine ⟨?_, other, still⟩
      rw [insertFree_handle other, same]
      rintro listed rfl
      exact still (inner.first listed)

structure SlabOk (s : State) : Prop where
  list : FreeList s
  count : s.slab.freeObjs = s.free.length
  base : 0 < s.slab.base
  size : s.slab.objs * realObjSz ≤ s.slab.length
  limit : s.slab.length ≤ s.slab.maxLength
  region : s.slab.maxLength = 2 ^ 27

theorem SlabOk.filled (ok : SlabOk s) (fits : s.slab.length + extendInc ≤ s.slab.maxLength)
    (filled : Filled (lengthen s) (s.slab.base + s.slab.length) extendObjs t) :
    SlabOk (countObjs t) ∧ Grows s (countObjs t) ∧
      (countObjs t).slab.objs + s.slab.freeObjs = s.slab.objs + (countObjs t).slab.freeObjs := by
  have sizes : extendObjs * realObjSz ≤ extendInc := by decide
  have size := ok.size
  obtain ⟨first, slab⟩ := filled.slab
  have list := filled.list
  refine ⟨⟨⟨list.linked, list.nodup, list.inside⟩, ?_, ?_, ?_, ?_, ?_⟩,
    ⟨filled.process, ?_, ?_, ?_, filled.kept⟩, ?_⟩
  · simp only [countObjs, slab, filled.length]
    exact congrArg (· + extendObjs) ok.count
  all_goals simp only [countObjs, slab, lengthen]
  · exact ok.base
  · rw [add_mul]
    omega
  · omega
  · exact ok.region
  · omega
  · omega

theorem SlabOk.extend (ok : SlabOk s) :
    SlabOk (slabExtend s) ∧ Grows s (slabExtend s) ∧
      (slabExtend s).slab.objs + s.slab.freeObjs = s.slab.objs + (slabExtend s).slab.freeObjs := by
  unfold slabExtend
  split
  · exact ⟨ok, ⟨rfl, rfl, rfl, le_rfl, fun x outside _ => ⟨rfl, outside⟩⟩, rfl⟩
  · rename_i fits
    have sizes : extendObjs * realObjSz ≤ extendInc := by decide
    have list := ok.list
    have wide : FreeList (lengthen s) := by
      refine ⟨list.linked, list.nodup, ?_⟩
      intro a member
      have inside := list.inside a member
      show a < s.slab.base + (s.slab.length + extendInc)
      omega
    have room : s.slab.base + s.slab.length + extendObjs * realObjSz ≤
        (lengthen s).slab.base + (lengthen s).slab.length := by
      show _ ≤ s.slab.base + (s.slab.length + extendInc)
      omega
    have positive : 0 < s.slab.base + s.slab.length := Nat.add_pos_left ok.base _
    exact ok.filled (Nat.le_of_not_lt fits) (insertObjs_filled wide positive list.inside room)

theorem SlabOk.alloc (ok : SlabOk s) (ran : handle_Alloc s = (handle, t)) :
    SlabOk t ∧ Grows s t ∧
      (handle = 0 ∧ t.slab.objs + s.slab.freeObjs = s.slab.objs + t.slab.freeObjs ∨
        handle ≠ 0 ∧ t.slab.objs + s.slab.freeObjs = s.slab.objs + t.slab.freeObjs + 1 ∧
          handle ∉ t.free ∧ handle < t.slab.base + t.slab.length ∧
          (handle ∈ s.free ∨ s.slab.base + s.slab.length ≤ handle)) := by
  obtain ⟨u, grown, okU, grows, even⟩ : ∃ u, (if s.slab.freeObjs = 0 then slabExtend s else s) = u ∧
      SlabOk u ∧ Grows s u ∧ u.slab.objs + s.slab.freeObjs = s.slab.objs + u.slab.freeObjs := by
    refine ⟨_, rfl, ?_⟩
    split
    · exact ok.extend
    · exact ⟨ok, ⟨rfl, rfl, rfl, le_rfl, fun x outside _ => ⟨rfl, outside⟩⟩, rfl⟩
  unfold handle_Alloc at ran
  simp only [grown] at ran
  split at ran
  · rename_i listed
    obtain ⟨rfl, rfl⟩ := Prod.mk.inj ran
    obtain ⟨rest, free⟩ : ∃ rest, u.free = u.slab.freeList :: rest := by
      have head := okU.list.linked.first_eq
      cases free : u.free with
      | nil =>
        rw [free] at head
        exact absurd head listed
      | cons a rest =>
        rw [free] at head
        exact ⟨rest, by rw [head]; rfl⟩
    have positive : 0 < u.slab.freeObjs := by
      rw [okU.count, free]
      exact Nat.succ_pos _
    obtain ⟨list, tail⟩ := okU.list.remove free
    have nodup := okU.list.nodup
    rw [free, nodup_cons] at nodup
    have step : Grows u { removeFree u.slab.freeList u with slab := { (removeFree u.slab.freeList u).slab with
        freeObjs := (removeFree u.slab.freeList u).slab.freeObjs - 1 } } := by
      refine ⟨removeFree_process _ _, ?_, ?_, ?_, ?_⟩
      · rw [removeFree_slab]
      · rw [removeFree_slab]
      · rw [removeFree_slab]
      · intro x outside _
        refine ⟨removeFree_handle ?_, ?_⟩
        · rintro real rfl
          have linked := okU.list.linked
          rw [free] at linked
          apply outside
          rw [free]
          apply mem_cons_of_mem
          have head := linked.2.2.first_eq
          cases rest with
          | nil => exact absurd head real
          | cons a rest =>
            rw [show (u.handle u.slab.freeList).fd = a from head]
            exact mem_cons_self
        · show x ∉ (removeFree u.slab.freeList u).free
          rw [tail]
          intro member
          exact outside (by rw [free]; exact mem_cons_of_mem _ member)
    refine ⟨⟨⟨list.linked, list.nodup, list.inside⟩, ?_, ?_, ?_, ?_, ?_⟩, grows.trans step,
      .inr ⟨listed, ?_, ?_, ?_, ?_⟩⟩
    · rw [tail, removeFree_slab]
      have count := okU.count
      rw [free, length_cons] at count
      show u.slab.freeObjs - 1 = rest.length
      omega
    · rw [removeFree_slab]
      exact okU.base
    · rw [removeFree_slab]
      exact okU.size
    · rw [removeFree_slab]
      exact okU.limit
    · rw [removeFree_slab]
      exact okU.region
    · rw [removeFree_slab]
      show u.slab.objs + s.slab.freeObjs = s.slab.objs + (u.slab.freeObjs - 1) + 1
      omega
    · show u.slab.freeList ∉ (removeFree u.slab.freeList u).free
      rw [tail]
      exact nodup.1
    · rw [removeFree_slab]
      exact okU.list.inside _ (okU.list.first listed)
    · by_contra neither
      rw [not_or, not_le] at neither
      exact (grows.kept _ neither.1 neither.2).2 (okU.list.first listed)
  · rename_i none
    obtain ⟨rfl, rfl⟩ := Prod.mk.inj ran
    exact ⟨okU, grows, .inl ⟨rfl, even⟩⟩

structure Table (s : State) (chain : Nat → Nat → List Nat) : Prop where
  linked : ∀ pid slot,
    Linked (fun a => (s.handle a).next) ((s.process pid).handles slot) (chain pid slot)
  live : ∀ pid slot, ∀ a ∈ chain pid slot, a ∉ s.free ∧ a < s.slab.base + s.slab.length
  below : ∀ pid slot, ∀ a ∈ chain pid slot, (s.handle a).fd < (s.process pid).nextFD
  distinct : ∀ pid slot, ((chain pid slot).map (fun a => (s.handle a).fd)).Nodup
  opened : ∀ pid fd, fd ∈ (s.process pid).opened ↔
    ∃ a ∈ chain pid (fd % PROCESS_HANDLE_SLOTS), (s.handle a).fd = fd
  nodup : ∀ pid, (s.process pid).opened.Nodup
  room : ∀ pid, (s.process pid).nextFD + s.slab.freeObjs ≤ s.slab.objs

structure Inv (s : State) : Prop where
  slab : SlabOk s
  table : ∃ chain, Table s chain

theorem lookupLoop_linked (fd : Nat) {first : Nat} {nodes : List Nat}
    (linked : Linked (fun a => (s.handle a).next) first nodes) (enough : nodes.length < fuel) :
    ∃ visited handle, lookupLoop s fd fuel first = some (visited, handle) ∧ visited ⊆ nodes ∧
      (handle ≠ 0 ↔ ∃ a ∈ nodes, (s.handle a).fd = fd) ∧
      (handle ≠ 0 → handle ∈ nodes ∧ (s.handle handle).fd = fd) := by
  induction nodes generalizing first fuel with
  | nil =>
    obtain ⟨fuel, rfl⟩ := Nat.exists_eq_add_one_of_ne_zero (ne_of_gt enough)
    have last : first = 0 := linked
    refine ⟨[], 0, ?_, List.Subset.refl _, by simp, fun real => absurd rfl real⟩
    rw [lookupLoop, if_pos last]
  | cons node nodes ih =>
    obtain ⟨fuel, rfl⟩ := Nat.exists_eq_add_one_of_ne_zero (ne_of_gt (Nat.zero_lt_of_lt enough))
    obtain ⟨rfl, real, rest⟩ := linked
    rw [lookupLoop, if_neg real]
    by_cases here : (s.handle first).fd = fd
    · rw [if_pos here]
      exact ⟨[first], first, rfl, by simp, by simp [real, here], fun _ => ⟨mem_cons_self, here⟩⟩
    · rw [if_neg here]
      obtain ⟨visited, handle, found, within, exactly, its⟩ := ih rest (Nat.lt_of_succ_lt_succ enough)
      refine ⟨first :: visited, handle, by rw [found]; rfl, cons_subset_cons _ within, ?_, ?_⟩
      · rw [exactly]
        simp [here]
      · intro some
        exact ⟨mem_cons_of_mem _ (its some).1, (its some).2⟩

theorem lookupLoop_congr (handles : t.handle = s.handle) (fd fuel first : Nat) :
    lookupLoop t fd fuel first = lookupLoop s fd fuel first := by
  induction fuel generalizing first with
  | zero => rfl
  | succ fuel ih => rw [lookupLoop, lookupLoop, handles, ih]

theorem lookupLoop_reaches {fd first node : Nat} {before after : List Nat}
    (linked : Linked (fun a => (s.handle a).next) first (before ++ node :: after))
    (others : ∀ a ∈ before, (s.handle a).fd ≠ fd)
    (found : lookupLoop s fd fuel first = some (visited, handle)) : node ∈ visited := by
  induction before generalizing first fuel visited with
  | nil =>
    obtain ⟨rfl, real, _⟩ := linked
    cases fuel with
    | zero => cases found
    | succ fuel =>
      rw [lookupLoop, if_neg real] at found
      split at found
      · cases found
        exact mem_singleton.mpr rfl
      · obtain ⟨walk, _, same⟩ := map_eq_some_iff.mp found
        cases same
        exact mem_cons_self
  | cons a before ih =>
    obtain ⟨rfl, real, rest⟩ := linked
    cases fuel with
    | zero => cases found
    | succ fuel =>
      rw [lookupLoop, if_neg real, if_neg (others first mem_cons_self)] at found
      obtain ⟨walk, tail, same⟩ := map_eq_some_iff.mp found
      cases same
      exact mem_cons_of_mem _
        (ih rest (fun x member => others x (mem_cons_of_mem _ member)) tail)

theorem Table.short (table : Table s chain) (ok : SlabOk s)
    (pid slot : Nat) : (s.process pid).nextFD < 2 ^ 27 ∧ (chain pid slot).length < walkLimit := by
  have room := table.room pid
  have size := ok.size
  have limit := ok.limit
  rw [ok.region] at limit
  unfold realObjSz at size
  have few : ((chain pid slot).map (fun a => (s.handle a).fd)).length ≤
      (range (s.process pid).nextFD).length := by
    refine (List.Nodup.subperm (table.distinct pid slot) ?_).length_le
    intro fd member
    obtain ⟨a, inside, rfl⟩ := mem_map.mp member
    exact mem_range.mpr (table.below pid slot a inside)
  rw [length_map, length_range] at few
  unfold walkLimit
  constructor <;> omega

theorem Table.lookup (table : Table s chain) (ok : SlabOk s) (pid fd : Nat) :
    ∃ visited handle, handle_Lookup s pid fd = some (visited, handle) ∧
      visited ⊆ chain pid (fd % PROCESS_HANDLE_SLOTS) ∧ (handle ≠ 0 ↔ fd ∈ (s.process pid).opened) ∧
      (handle ≠ 0 → handle ∈ chain pid (fd % PROCESS_HANDLE_SLOTS) ∧ (s.handle handle).fd = fd) := by
  obtain ⟨visited, handle, found, within, exactly, its⟩ :=
    lookupLoop_linked fd (table.linked pid (fd % PROCESS_HANDLE_SLOTS)) (table.short ok pid _).2
  exact ⟨visited, handle, found, within, exactly.trans (table.opened pid fd).symm, its⟩

theorem Inv.good (inv : Inv s) : Good s := by
  obtain ⟨chain, table⟩ := inv.table
  refine ⟨?_, ?_, table.nodup, inv.slab.list.nodup⟩
  · intro pid fd
    obtain ⟨visited, handle, found, _, exactly, _⟩ := table.lookup inv.slab pid fd
    exact ⟨visited, handle, found, exactly⟩
  · intro pid fd visited handle found a member
    obtain ⟨_, _, same, within, _⟩ := table.lookup inv.slab pid fd
    rw [found] at same
    cases same
    exact (table.live pid _ a (within member)).1

theorem Table.congr (table : Table s chain)
    (handles : ∀ pid slot, ∀ a ∈ chain pid slot, t.handle a = s.handle a ∧ a ∉ t.free ∧
      a < t.slab.base + t.slab.length)
    (process : t.process = s.process)
    (room : ∀ pid, (s.process pid).nextFD + t.slab.freeObjs ≤ t.slab.objs) : Table t chain := by
  refine ⟨?_, ?_, ?_, ?_, ?_, ?_, ?_⟩
  · intro pid slot
    rw [process]
    apply (table.linked pid slot).congr
    intro a member
    rw [(handles pid slot a member).1]
  · intro pid slot a member
    exact (handles pid slot a member).2
  · intro pid slot a member
    rw [(handles pid slot a member).1, process]
    exact table.below pid slot a member
  · intro pid slot
    rw [map_congr_left (fun a member => by rw [(handles pid slot a member).1])]
    exact table.distinct pid slot
  · intro pid fd
    rw [process, table.opened]
    refine exists_congr (fun a => and_congr_right (fun member => ?_))
    rw [(handles pid _ a member).1]
  · intro pid
    rw [process]
    exact table.nodup pid
  · intro pid
    rw [process]
    exact room pid

theorem Table.grows (table : Table s chain)
    (grows : Grows s t) (room : ∀ pid, (s.process pid).nextFD + t.slab.freeObjs ≤ t.slab.objs) :
    Table t chain := by
  refine table.congr ?_ grows.process room
  intro pid slot a member
  obtain ⟨outside, inside⟩ := table.live pid slot a member
  obtain ⟨same, still⟩ := grows.kept a outside inside
  have longer := grows.longer
  exact ⟨same, still, by rw [grows.base]; omega⟩

structure Held (s : State) (handle : Nat) : Prop where
  real : handle ≠ 0
  outside : handle ∉ s.free
  inside : handle < s.slab.base + s.slab.length
  slab : SlabOk s
  table : ∃ chain, Table s chain ∧ (∀ pid slot, handle ∉ chain pid slot) ∧
    ∀ pid, (s.process pid).nextFD + s.slab.freeObjs + 1 ≤ s.slab.objs

theorem Inv.alloc (inv : Inv s) (ran : handle_Alloc s = (handle, t)) :
    handle = 0 ∧ Inv t ∨ Held t handle := by
  obtain ⟨ok, grows, result⟩ := inv.slab.alloc ran
  obtain ⟨chain, table⟩ := inv.table
  rcases result with ⟨none, even⟩ | ⟨real, taken, outside, inside, fresh⟩
  · refine .inl ⟨none, ok, chain, table.grows grows ?_⟩
    intro pid
    have := table.room pid
    omega
  · have room : ∀ pid, (s.process pid).nextFD + t.slab.freeObjs + 1 ≤ t.slab.objs := by
      intro pid
      have := table.room pid
      omega
    refine .inr ⟨real, outside, inside, ok, chain, table.grows grows ?_, ?_, ?_⟩
    · intro pid
      have := room pid
      omega
    · intro pid slot member
      obtain ⟨before, within⟩ := table.live pid slot handle member
      rcases fresh with listed | new
      · exact before listed
      · omega
    · intro pid
      rw [grows.process]
      exact room pid

theorem SlabOk.congr (ok : SlabOk s) (slab : t.slab = s.slab) (free : t.free = s.free)
    (links : ∀ a ∈ s.free, t.handle a = s.handle a) : SlabOk t := by
  have list := ok.list
  refine ⟨⟨?_, by rw [free]; exact list.nodup, by rw [slab, free]; exact list.inside⟩,
    by rw [slab, free]; exact ok.count, by rw [slab]; exact ok.base, by rw [slab]; exact ok.size,
    by rw [slab]; exact ok.limit, by rw [slab]; exact ok.region⟩
  rw [slab, free]
  apply list.linked.congr
  intro a member
  rw [links a member]

theorem Held.set (held : Held s handle) (change : Handle → Handle) :
    Held (s.setHandle handle change) handle := by
  obtain ⟨chain, table, absent, room⟩ := held.table
  have others : ∀ x, x ≠ handle → (s.setHandle handle change).handle x = s.handle x :=
    fun x other => update_of_ne other _ _
  refine ⟨held.real, held.outside, held.inside, ?_, chain, ?_, absent, room⟩
  · refine held.slab.congr rfl rfl ?_
    intro a member
    apply others
    rintro rfl
    exact held.outside member
  · refine table.congr ?_ rfl table.room
    intro pid slot a member
    refine ⟨others a ?_, table.live pid slot a member⟩
    rintro rfl
    exact absent pid slot member

theorem Held.free (held : Held s handle) : Inv (handle_Free handle s) := by
  obtain ⟨chain, table, absent, room⟩ := held.table
  have list := held.slab.list.insert held.real held.outside held.inside
  refine ⟨⟨⟨list.linked, list.nodup, list.inside⟩, ?_, ?_, ?_, ?_, ?_⟩, chain, ?_⟩
  · simp only [handle_Free, insertFree_slab, insertFree_free, length_cons]
    rw [held.slab.count]
  · simp only [handle_Free, insertFree_slab]
    exact held.slab.base
  · simp only [handle_Free, insertFree_slab]
    exact held.slab.size
  · simp only [handle_Free, insertFree_slab]
    exact held.slab.limit
  · simp only [handle_Free, insertFree_slab]
    exact held.slab.region
  · refine table.congr ?_ (insertFree_process _ _) ?_
    · intro pid slot a member
      obtain ⟨outside, inside⟩ := table.live pid slot a member
      have other : a ≠ handle := by
        rintro rfl
        exact absent pid slot member
      simp only [handle_Free, insertFree_slab, insertFree_free, mem_cons, not_or]
      refine ⟨insertFree_handle other ?_, ⟨other, outside⟩, inside⟩
      rintro listed rfl
      exact outside (held.slab.list.first listed)
    · intro pid
      have := room pid
      simp only [handle_Free, insertFree_slab]
      omega

theorem handle_Add_eq (pid handle : Nat) (s : State) :
    let proc := s.process pid
    let t := (handle_Add pid handle s).2.give pid proc.nextFD
    t.slab = s.slab ∧ t.free = s.free ∧
      t.handle = update s.handle handle { s.handle handle with
        fd := proc.nextFD, processId := pid, next := proc.handles (proc.nextFD % PROCESS_HANDLE_SLOTS) } ∧
      t.process = update s.process pid ⟨add64 proc.nextFD 1,
        update proc.handles (proc.nextFD % PROCESS_HANDLE_SLOTS) handle,
        proc.nextFD :: proc.opened⟩ := by
  refine ⟨rfl, rfl, rfl, ?_⟩
  simp [handle_Add, State.give, State.setProcess, State.setHandle]

def addChain (chain : Nat → Nat → List Nat) (pid slot handle : Nat) : Nat → Nat → List Nat :=
  fun p i => if p = pid ∧ i = slot then handle :: chain p i else chain p i

theorem mem_addChain {pid slot handle p i a : Nat} :
    a ∈ addChain chain pid slot handle p i ↔ p = pid ∧ i = slot ∧ a = handle ∨ a ∈ chain p i := by
  unfold addChain
  split
  · rename_i here
    rw [mem_cons]
    tauto
  · rename_i other
    tauto

theorem Table.add (table : Table s chain) (held : Held s handle) (absent : ∀ p i, handle ∉ chain p i)
    (room : ∀ p, (s.process p).nextFD + s.slab.freeObjs + 1 ≤ s.slab.objs)
    (slab : t.slab = s.slab) (free : t.free = s.free)
    (others : ∀ a, a ≠ handle → t.handle a = s.handle a)
    (fd : (t.handle handle).fd = (s.process pid).nextFD) (next : (t.handle handle).next =
      (s.process pid).handles ((s.process pid).nextFD % PROCESS_HANDLE_SLOTS))
    (process : t.process = update s.process pid ⟨(s.process pid).nextFD + 1,
      update (s.process pid).handles ((s.process pid).nextFD % PROCESS_HANDLE_SLOTS) handle,
      (s.process pid).nextFD :: (s.process pid).opened⟩) :
    Table t (addChain chain pid ((s.process pid).nextFD % PROCESS_HANDLE_SLOTS) handle) := by
  have kept : ∀ p i, ∀ a ∈ chain p i, t.handle a = s.handle a := by
    intro p i a member
    apply others
    rintro rfl
    exact absent p i member
  have elsewhere : ∀ p, p ≠ pid → t.process p = s.process p := by
    intro p other
    rw [process, update_of_ne other]
  have linked : ∀ p i, Linked (fun a => (t.handle a).next) ((s.process p).handles i) (chain p i) := by
    intro p i
    apply (table.linked p i).congr
    intro a member
    rw [kept p i a member]
  have oldFds : ∀ p i, (chain p i).map (fun a => (t.handle a).fd) =
      (chain p i).map (fun a => (s.handle a).fd) := by
    intro p i
    exact map_congr_left (fun a member => by rw [kept p i a member])
  have fresh : ∀ i, ∀ a ∈ chain pid i, (s.handle a).fd ≠ (s.process pid).nextFD :=
    fun i a member => ne_of_lt (table.below pid i a member)
  refine ⟨?_, ?_, ?_, ?_, ?_, ?_, ?_⟩
  · intro p i
    unfold addChain
    by_cases mine : p = pid
    · subst mine
      rw [process, update_self]
      by_cases here : i = (s.process p).nextFD % PROCESS_HANDLE_SLOTS
      · subst here
        rw [if_pos ⟨rfl, rfl⟩]
        refine ⟨update_self _ _ _, held.real, ?_⟩
        show Linked _ (t.handle handle).next _
        rw [next]
        exact linked p _
      · rw [if_neg (fun both => here both.2)]
        simp only [update_of_ne here]
        exact linked p i
    · rw [if_neg (fun both => mine both.1), elsewhere p mine]
      exact linked p i
  · intro p i a member
    rw [slab, free]
    rcases mem_addChain.mp member with ⟨_, _, rfl⟩ | old
    · exact ⟨held.outside, held.inside⟩
    · exact table.live p i a old
  · intro p i a member
    rcases mem_addChain.mp member with ⟨rfl, _, rfl⟩ | old
    · rw [fd, process, update_self]
      exact Nat.lt_succ_self _
    · rw [kept p i a old]
      have before := table.below p i a old
      by_cases mine : p = pid
      · subst mine
        rw [process, update_self]
        exact Nat.lt_succ_of_lt before
      · rw [elsewhere p mine]
        exact before
  · intro p i
    unfold addChain
    split
    · rename_i here
      obtain ⟨rfl, rfl⟩ := here
      rw [map_cons, nodup_cons, oldFds, fd]
      refine ⟨?_, table.distinct p _⟩
      intro member
      obtain ⟨a, inside, same⟩ := mem_map.mp member
      exact fresh _ a inside same
    · rw [oldFds]
      exact table.distinct p i
  · intro p x
    have older : (∃ a ∈ chain p (x % PROCESS_HANDLE_SLOTS), (t.handle a).fd = x) ↔
        x ∈ (s.process p).opened := by
      rw [table.opened]
      refine exists_congr (fun a => and_congr_right (fun member => ?_))
      rw [kept p _ a member]
    by_cases mine : p = pid
    · subst mine
      rw [process, update_self, mem_cons, ← older]
      constructor
      · rintro (rfl | ⟨a, member, same⟩)
        · exact ⟨handle, mem_addChain.mpr (.inl ⟨rfl, rfl, rfl⟩), fd⟩
        · exact ⟨a, mem_addChain.mpr (.inr member), same⟩
      · rintro ⟨a, member, same⟩
        rcases mem_addChain.mp member with ⟨_, _, rfl⟩ | old
        · exact .inl (same.symm.trans fd)
        · exact .inr ⟨a, old, same⟩
    · rw [elsewhere p mine, ← older]
      refine exists_congr (fun a => and_congr_left (fun _ => ?_))
      rw [mem_addChain]
      simp [mine]
  · intro p
    by_cases mine : p = pid
    · subst mine
      rw [process, update_self]
      refine (table.nodup p).cons ?_
      rw [table.opened]
      rintro ⟨a, member, same⟩
      exact fresh _ a member same
    · rw [elsewhere p mine]
      exact table.nodup p
  · intro p
    rw [slab]
    have left := room p
    by_cases mine : p = pid
    · subst mine
      rw [process, update_self]
      show (s.process p).nextFD + 1 + s.slab.freeObjs ≤ s.slab.objs
      omega
    · rw [elsewhere p mine]
      omega

theorem Held.add (held : Held s handle) (pid : Nat) :
    (s.process pid).nextFD < 2 ^ 63 ∧
      Inv ((handle_Add pid handle s).2.give pid (s.process pid).nextFD) := by
  obtain ⟨chain, table, absent, room⟩ := held.table
  obtain ⟨slab, free, handles, process⟩ := handle_Add_eq pid handle s
  have small := (table.short held.slab pid 0).1
  have next : add64 (s.process pid).nextFD 1 = (s.process pid).nextFD + 1 := by
    apply add64_of_lt
    unfold word64
    omega
  rw [next] at process
  have others : ∀ a, a ≠ handle → ((handle_Add pid handle s).2.give pid
      (s.process pid).nextFD).handle a = s.handle a := by
    intro a other
    rw [handles, update_of_ne other]
  refine ⟨by omega, held.slab.congr slab free ?_, _, table.add held absent room slab free others ?_ ?_ process⟩
  · intro a member
    rw [others a]
    rintro rfl
    exact held.outside member
  · rw [handles, update_self]
  · rw [handles, update_self]

theorem Inv.console (inv : Inv s) (ran : console_OpenHandle s = (handle, t)) :
    handle = 0 ∧ Inv t ∨ Held t handle := by
  unfold console_OpenHandle at ran
  cases result : handle_Alloc s with
  | mk a u =>
    simp only [result] at ran
    rcases inv.alloc result with ⟨rfl, kept⟩ | held
    · cases ran
      exact .inl ⟨rfl, kept⟩
    · rw [if_neg held.real] at ran
      cases ran
      exact .inr (held.set _)

theorem Inv.vfsuio (inv : Inv s) (ran : vfsuio_Open vnode s = (status, handle, t)) :
    (status = -ENOMEM ∨ status = -ENOENT) ∧ Inv t ∨ status = 0 ∧ Held t handle := by
  unfold vfsuio_Open at ran
  cases result : handle_Alloc s with
  | mk a u =>
    simp only [result] at ran
    rcases inv.alloc result with ⟨rfl, kept⟩ | held
    · cases ran
      exact .inl ⟨.inl rfl, kept⟩
    · rw [if_neg held.real] at ran
      cases vnode with
      | none =>
        cases ran
        exact .inl ⟨.inr rfl, held.free⟩
      | some vn =>
        cases ran
        exact .inr ⟨rfl, held.set _⟩

theorem toResult_failed (failed : status = -ENOMEM ∨ status = -ENOENT) :
    ¬ toResult status < 2 ^ 63 := by
  rcases failed with rfl | rfl <;> decide

theorem Inv.openPath (inv : Inv s) (accepted : (User.copy_StrIn user user_path 256).1 = 0)
    (moved : apply s (.openPath pid user user_path vnode) = some t) : Inv t := by
  simp only [apply, syscall_Open, accepted, ne_eq, not_true_eq_false, ↓reduceIte] at moved
  split at moved
  · cases moved
  · rename_i result u called
    split at called
    · split at called
      · cases opened : console_OpenHandle s with
        | mk handle v =>
          simp only [opened] at called
          rcases inv.console opened with ⟨rfl, _⟩ | held
          · cases called
          · rw [if_neg held.real] at called
            obtain ⟨small, kept⟩ := held.add pid
            cases called
            simp only [handle_Add] at moved kept
            rw [if_pos small] at moved
            cases moved
            exact kept
      · cases called
        rw [if_neg (toResult_failed (.inr rfl))] at moved
        cases moved
        exact inv
    · cases opened : vfsuio_Open vnode s with
      | mk status rest =>
        obtain ⟨handle, v⟩ := rest
        simp only [opened] at called
        rcases inv.vfsuio opened with ⟨failed, kept⟩ | ⟨rfl, held⟩
        · have nonzero : ¬ status = 0 := by
            rcases failed with rfl | rfl <;> decide
          rw [if_pos nonzero] at called
          cases called
          rw [if_neg (toResult_failed failed)] at moved
          cases moved
          exact kept
        · obtain ⟨small, kept⟩ := held.add pid
          simp only [not_true_eq_false, ↓reduceIte, some.injEq] at called
          cases called
          simp only [handle_Add] at moved kept
          rw [if_pos small] at moved
          cases moved
          exact kept

theorem Inv.preopen (inv : Inv s) (moved : apply s (.preopen pid) = some t) : Inv t := by
  simp only [apply] at moved
  cases opened : console_OpenHandle s with
  | mk handle u =>
    simp only [opened] at moved
    rcases inv.console opened with ⟨rfl, _⟩ | held
    · cases moved
    · rw [if_neg held.real] at moved
      obtain ⟨_, kept⟩ := held.add pid
      cases moved
      exact kept

theorem Inv.close (inv : Inv s) (closed : fd ∉ (s.process pid).opened)
    (moved : apply s (.close pid fd) = some t) : t = s := by
  obtain ⟨visited, handle, found, exactly⟩ := inv.good.exact pid fd
  have none : handle = 0 := by
    by_contra real
    exact closed (exactly.mp real)
  simp only [apply, syscall_Close, found, none, ↓reduceIte, some.injEq] at moved
  rw [← moved, erase_of_not_mem closed, State.setProcess, update_eq_self]

theorem Inv.io (moved : apply s (.io pid fd) = some t) : t = s := by
  simp only [apply, syscall_Io] at moved
  split at moved
  · cases moved
  · split at moved
    · exact (some.inj moved).symm
    · split at moved
      · exact (some.inj moved).symm
      · split at moved
        · exact (some.inj moved).symm
        · cases moved

theorem Inv.step (inv : Inv s) {label : Label} (moved : apply s label = some t)
    (guarded : Guard s label) : Inv t := by
  cases label with
  | preopen pid => exact inv.preopen moved
  | openPath pid user user_path vnode => exact inv.openPath guarded moved
  | close pid fd =>
    rw [inv.close guarded moved]
    exact inv
  | io pid fd =>
    rw [Inv.io moved]
    exact inv

/-- The positive error of `Copy_StrIn` passes for a descriptor. -/
theorem Inv.breaks_open (inv : Inv s) (refused : (User.copy_StrIn user user_path 256).1 ≠ 0)
    (moved : apply s (.openPath pid user user_path vnode) = some t) : ¬ Good t := by
  intro good
  have small : toResult (User.copy_StrIn user user_path 256).1 < 2 ^ 63 := by
    rcases User.copy_StrIn_fails refused with failed | failed <;> rw [failed] <;> decide
  simp only [apply, syscall_Open, ne_eq, refused, not_false_eq_true, ↓reduceIte, small,
    some.injEq] at moved
  subst moved
  generalize toResult (User.copy_StrIn user user_path 256).1 = fd at good
  have opened : ((s.give pid fd).process pid).opened = fd :: (s.process pid).opened := by
    simp [State.give, State.setProcess]
  have heads : ((s.give pid fd).process pid).handles = (s.process pid).handles := by
    simp [State.give, State.setProcess]
  have same : handle_Lookup (s.give pid fd) pid fd = handle_Lookup s pid fd := by
    have handles : (s.give pid fd).handle = s.handle := rfl
    unfold handle_Lookup
    rw [heads, lookupLoop_congr handles]
  obtain ⟨visited, handle, found, exactly⟩ := good.exact pid fd
  obtain ⟨_, _, before, exactBefore⟩ := inv.good.exact pid fd
  rw [same, before] at found
  cases found
  have nodup := good.distinct pid
  rw [opened] at exactly nodup
  exact (nodup_cons.mp nodup).1 (exactBefore.mp (exactly.mpr mem_cons_self))

theorem closed_handle (found : handle_Lookup s pid fd = some (visited, handle)) (real : handle ≠ 0)
    (moved : apply s (.close pid fd) = some t) :
    t.free = handle :: s.free ∧ t.handle = (insertFree handle s).handle ∧
      (t.process pid).handles = (s.process pid).handles := by
  have freed : t = (handle_Free handle s).setProcess pid { (handle_Free handle s).process pid with
      opened := ((handle_Free handle s).process pid).opened.erase fd } := by
    simp only [apply, syscall_Close, found, real, ↓reduceIte, closeHandle] at moved
    cases ops : (s.handle handle).ops with
    | console =>
      simp only [ops, map_some, some.injEq] at moved
      exact moved.symm
    | file =>
      simp only [ops] at moved
      by_cases typed : (s.handle handle).type = HANDLE_TYPE_FILE
      · simp only [typed, ↓reduceIte, map_some, some.injEq] at moved
        exact moved.symm
      · simp [typed] at moved
  subst freed
  refine ⟨insertFree_free handle s, rfl, ?_⟩
  simp [State.setProcess, handle_Free, insertFree_process]

theorem Inv.breaks_close (inv : Inv s) (opened : fd ∈ (s.process pid).opened)
    (moved : apply s (.close pid fd) = some t) : ¬ Good t := by
  intro good
  obtain ⟨chain, table⟩ := inv.table
  obtain ⟨_, handle, found, _, exactly, its⟩ := table.lookup inv.slab pid fd
  have real := exactly.mpr opened
  obtain ⟨member, own⟩ := its real
  obtain ⟨free, handles, heads⟩ := closed_handle found real moved
  obtain ⟨before, after, split⟩ := append_of_mem member
  have linked := table.linked pid (fd % PROCESS_HANDLE_SLOTS)
  have distinct := table.distinct pid (fd % PROCESS_HANDLE_SLOTS)
  rw [split] at linked distinct
  rw [map_append, map_cons, nodup_append] at distinct
  have others : ∀ a ∈ before, (t.handle a).fd ≠ fd := by
    intro a inside
    have different : (s.handle a).fd ≠ fd := by
      intro same
      exact distinct.2.2 _ (mem_map.mpr ⟨a, inside, rfl⟩) _ mem_cons_self (same.trans own.symm)
    rw [handles, insertFree_fd, if_neg]
    · exact different
    · rintro rfl
      exact different own
  have walk : Linked (fun a => (t.handle a).next) ((t.process pid).handles (fd % PROCESS_HANDLE_SLOTS))
      (before ++ handle :: after) := by
    rw [heads]
    apply linked.congr
    intro a _
    rw [handles, insertFree_next]
  obtain ⟨visited, result, reached, _⟩ := good.exact pid fd
  have inside := lookupLoop_reaches walk others reached
  apply good.live pid fd visited result reached handle inside
  rw [free]
  exact mem_cons_self

theorem Started.inv (started : Started s) : Inv s := by
  obtain ⟨first, objs, freeObjs, free⟩ := started.empty
  obtain ⟨base, length, maxLength⟩ := started.region
  refine ⟨⟨⟨?_, ?_, ?_⟩, ?_, base, ?_, ?_, maxLength⟩, fun _ _ => [], ?_⟩
  · rw [free, first]
    rfl
  · rw [free]
    exact nodup_nil
  · simp [free]
  · simp [free, freeObjs]
  · simp [objs]
  · simp [length]
  · refine ⟨?_, by simp, by simp, by simp, ?_, ?_, ?_⟩
    · intro pid slot
      exact (started.table pid).2.1 slot
    · intro pid fd
      simp [(started.table pid).2.2]
    · intro pid
      rw [(started.table pid).2.2]
      exact nodup_nil
    · intro pid
      simp [(started.table pid).1, freeObjs]

/-- The tables keep their promise exactly along the runs that close nothing open, and open
only paths that `Copy_StrIn` accepts. -/
theorem descriptors_iff_never_closed (started : Started s) (labels : List Label) :
    Along apply (fun _ _ t => Good t) s labels ↔ Along apply (fun s label _ => Guard s label) s labels := by
  refine along_iff Inv ?_ ?_ started.inv labels
  · intro s label t inv moved guarded
    have kept := inv.step moved guarded
    exact ⟨kept.good, kept⟩
  · intro s label t inv moved refused
    cases label with
    | preopen pid => exact absurd trivial refused
    | openPath pid user user_path vnode => exact inv.breaks_open refused moved
    | close pid fd => exact inv.breaks_close (not_not.mp refused) moved
    | io pid fd => exact absurd trivial refused

def emptyTables : State where
  handle _ := ⟨0, 0, 0, 0, 0, .console⟩
  slab := ⟨0xFFFFFFFF80100000, 0xFFFF810000000000, 2 ^ 27, 0, 0, 0, 0⟩
  process _ := ⟨0, fun _ => 0, []⟩
  free := []

theorem emptyTables_started : Started emptyTables := by
  refine ⟨fun pid => ⟨rfl, fun _ => rfl, rfl⟩, ⟨rfl, rfl, rfl, rfl⟩, by decide, rfl, rfl⟩

/-- A user whose memory holds the path `/f`. -/
def pathUser : User.Memory := fun address =>
  if address = 0x1000 then some 0x2F else if address = 0x1001 then some 0x66
  else if address = 0x1002 then some 0 else none

instance (s : State) : DecidablePred (Guard s) := fun label =>
  match label with
  | .preopen _ => isTrue trivial
  | .openPath _ _ _ _ => inferInstanceAs (Decidable (_ = _))
  | .close _ _ => inferInstanceAs (Decidable (¬ _))
  | .io _ _ => isTrue trivial

def openThree : List Label := [.preopen 1, .openPath 1 pathUser 0x1000 (some 7), .io 1 1, .close 1 9]

theorem descriptors_iff_never_closed_open :
    (openThree.foldlM apply emptyTables).map (fun s => (s.process 1).opened) = some [1, 0] ∧
      Along apply (fun _ _ t => Good t) emptyTables openThree :=
  ⟨by decide +kernel, (descriptors_iff_never_closed emptyTables_started openThree).mpr (by decide +kernel)⟩

/-- A closed handle is still in its chain: its object is free, and the next look at the slot
comes to it. An unreadable path is answered with a number that is no descriptor. -/
theorem descriptor_closed_in_chain :
    (([.preopen 1, .close 1 0] : List Label).foldlM apply emptyTables).any (fun s =>
        (handle_Lookup s 1 128).any (fun walk => walk.1.any (fun a => a ∈ s.free))) = true ∧
      (([.openPath 1 pathUser 0x2000 none] : List Label).foldlM apply emptyTables).any (fun s =>
        (s.process 1).opened = [0x1BAD0004] ∧ handle_Lookup s 1 0x1BAD0004 = some ([], 0)) = true := by
  decide +kernel

end BoringOs.Handles
