import BoringOs.O2fs
import BoringOs.SystemMap

/-! The ELF loader of `sys/kern/loader.c`. It works on the page tables of the process and, through
the direct map, on the bytes of its pages. `none` is a kernel that stops. -/

namespace BoringOs.Loader

open ByteMemory BufCache O2fs PAlloc PMap

def ELFMAG0 : UInt8 := 0x7F
def ELFMAG1 : UInt8 := 69
def ELFMAG2 : UInt8 := 76
def ELFMAG3 : UInt8 := 70
def ELFCLASS64 : UInt8 := 2
def EM_AMD64 : Nat := 62
def PT_LOAD : Nat := 1
def PT_DYNAMIC : Nat := 2

def MEM_USERSPACE_STKBASE : Nat := 0x70000000
def MEM_USERSPACE_STKLEN : Nat := 0x10000

def DMPA2VA (pa : Nat) : Nat := pa + MEM_DIRECTMAP_BASE

/-! Fields of `Elf64_Ehdr` and `Elf64_Phdr`, given the address of the object. -/

def e_machine (memory : Memory) (ehdr : Nat) : Nat := loadLE memory (ehdr + 18) 2
def e_entry (memory : Memory) (ehdr : Nat) : Nat := loadLE memory (ehdr + 24) 8
def e_phoff (memory : Memory) (ehdr : Nat) : Nat := loadLE memory (ehdr + 32) 8
def e_phnum (memory : Memory) (ehdr : Nat) : Nat := loadLE memory (ehdr + 56) 2

def PHDR_SIZE : Nat := 56

def p_type (memory : Memory) (phdr : Nat) : Nat := loadLE memory phdr 4
def p_offset (memory : Memory) (phdr : Nat) : Nat := loadLE memory (phdr + 8) 8
def p_vaddr (memory : Memory) (phdr : Nat) : Nat := loadLE memory (phdr + 16) 8
def p_filesz (memory : Memory) (phdr : Nat) : Nat := loadLE memory (phdr + 32) 8
def p_memsz (memory : Memory) (phdr : Nat) : Nat := loadLE memory (phdr + 40) 8

def loader_CheckHeader (memory : Memory) (ehdr : Nat) : Bool :=
  (memory ehdr == ELFMAG0 && memory (ehdr + 1) == ELFMAG1 && memory (ehdr + 2) == ELFMAG2 &&
    memory (ehdr + 3) == ELFMAG3) && (memory (ehdr + 4) == ELFCLASS64 &&
    e_machine memory ehdr == EM_AMD64)

/-- The page frames with the page tables, the memory that the kernel reads and writes, and the entry
point of the process. -/
structure Loading where
  frames : Frames
  io : IoState
  entrypoint : Nat

def Loading.memory (s : Loading) : Memory := s.io.cache.memory

/-- What is left of a segment from a page boundary on: `piece vaddr moved len` is done for one page
after the other. -/
def eachPiece (piece : Nat → Nat → Nat → Loading → Option Loading) :
    Nat → Nat → Nat → Nat → Loading → Option Loading
  | 0, _, _, _, _ => none
  | rounds + 1, vaddr, moved, len, s =>
    if len > PGSIZE then
      (piece vaddr moved PGSIZE s).bind
        (eachPiece piece rounds (add64 vaddr PGSIZE) (moved + PGSIZE) (len - PGSIZE))
    else if len > 0 then piece vaddr moved len s
    else some s

/-- `LoaderLoadSegment` and `LoaderZeroSegment`, which differ in what they do with a piece of a page.
A round takes a page off `len`. -/
def eachSegmentPage (piece : Nat → Nat → Nat → Loading → Option Loading) (vaddr len : Nat)
    (s : Loading) : Option Loading :=
  if vaddr % PGSIZE ≠ 0 then
    let maxlen := PGSIZE - vaddr % PGSIZE
    let rlen := if maxlen < len then maxlen else len
    (piece vaddr 0 rlen s).bind
      (eachPiece piece (len - rlen + 1) (add64 vaddr rlen) rlen (len - rlen))
  else eachPiece piece (len + 1) vaddr 0 len s

/-- `VFS_Read` into the page of `vaddr`; its status is not looked at. -/
def loadPiece (root : Nat) (vn : VNode) (offset vaddr moved rlen : Nat) (s : Loading) :
    Option Loading :=
  (pMap_Translate root vaddr s.frames).bind (fun pa =>
    (o2fs_Read vn (DMPA2VA pa) (add64 offset moved) rlen s.io).map (fun (_, io) => { s with io := io }))

def zeroPiece (root vaddr _moved rlen : Nat) (s : Loading) : Option Loading :=
  (pMap_Translate root vaddr s.frames).map (fun pa =>
    { s with io.cache.memory := copyBytes s.memory (DMPA2VA pa) (fun _ => 0) 0 rlen })

def loaderLoadSegment (root : Nat) (vn : VNode) (vaddr offset len : Nat) (s : Loading) :
    Option Loading :=
  eachSegmentPage (loadPiece root vn offset) vaddr len s

def loaderZeroSegment (root vaddr len : Nat) (s : Loading) : Option Loading :=
  eachSegmentPage (zeroPiece root) vaddr len s

/-- The first loop of `Loader_Load` from header `i` on; the two `ASSERT`s stop the kernel. -/
def mapSegments (root phdr : Nat) : Nat → Nat → Loading → Option Loading
  | 0, _, s => some s
  | left + 1, i, s =>
    let ph := phdr + PHDR_SIZE * i
    if p_type s.memory ph = PT_DYNAMIC then none
    else if p_type s.memory ph = PT_LOAD then
      let va := p_vaddr s.memory ph &&& PGNUMMASK
      let memsz := add64 (p_memsz s.memory ph) (p_vaddr s.memory ph - va)
      (pMap_AllocMap root va memsz PTE_W s.frames).bind
        (fun frames => mapSegments root phdr left (i + 1) { s with frames := frames })
    else mapSegments root phdr left (i + 1) s

/-- One header in the second loop of `Loader_Load`. -/
def loadHeader (root : Nat) (vn : VNode) (ph : Nat) (s : Loading) : Option Loading :=
  if p_type s.memory ph = PT_LOAD then
    (loaderLoadSegment root vn (p_vaddr s.memory ph) (p_offset s.memory ph) (p_filesz s.memory ph)
      s).bind (fun s =>
        if p_filesz s.memory ph ≤ p_memsz s.memory ph then
          loaderZeroSegment root (add64 (p_filesz s.memory ph) (p_vaddr s.memory ph))
            (p_memsz s.memory ph - p_filesz s.memory ph) s
        else some s)
  else some s

def loadSegments (root : Nat) (vn : VNode) (phdr : Nat) : Nat → Nat → Loading → Option Loading
  | 0, _, s => some s
  | left + 1, i, s =>
    (loadHeader root vn (phdr + PHDR_SIZE * i) s).bind (loadSegments root vn phdr left (i + 1))

def loader_Load (root : Nat) (vn : VNode) (buf : Nat) (s : Loading) : Option (Bool × Loading) :=
  let phdr := add64 buf (e_phoff s.memory buf)
  let phnum := e_phnum s.memory buf
  if loader_CheckHeader s.memory buf then
    (mapSegments root phdr phnum 0 s).bind (fun s =>
      (pMap_AllocMap root MEM_USERSPACE_STKBASE MEM_USERSPACE_STKLEN PTE_W s.frames).bind (fun frames =>
        (loadSegments root vn phdr phnum 0 { s with frames := frames }).map (fun s =>
          (true, { s with entrypoint := e_entry s.memory buf }))))
  else some (false, s)

end BoringOs.Loader
