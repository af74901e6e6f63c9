import BoringOs.O2fs

/-! Path lookup of `sys/kern/vfs.c` on the root file system, which is O2FS. A path is the
string without its terminator; `none` is a kernel that stops. -/

namespace BoringOs.Vfs

open BufCache O2fs

/-- The character between the components of a path. -/
def slash : UInt8 := 47

/-- The loop of `VFS_Lookup`, with the string from `start` on. A component of 256 bytes
overruns `curName` with its terminator, and `curNode` is used before the next one. -/
def vfs_LookupLoop : Nat → Option VNode → List UInt8 → BufState → Option (Option VNode × BufState)
  | 0, _, _, _ => none
  | rounds + 1, curNode, start, s =>
    let curName := start.takeWhile (fun c => c != slash)
    if curName.length = 0 then some (curNode, s)
    else if curName.length > 256 then some (none, s)
    else if curName.length = 256 then none
    else
      match curNode with
      | none => none
      | some oldNode =>
        match o2fs_Lookup oldNode curName s with
        | none => none
        | some (status, curNode, s) =>
          if status < 0 then some (none, s)
          else
            match start.drop curName.length with
            | [] => some (curNode, s)
            | _ :: rest => vfs_LookupLoop rounds curNode rest s

/-- `VFS_Lookup`, given `rootFS` and its root. Every round but the last takes a slash. -/
def vfs_Lookup (rootFS : VFS) (root : Option VNode) (path : List UInt8) (s : BufState) :
    Option (Option VNode × BufState) :=
  match path with
  | [] => some (none, s)
  | c :: start =>
    if c ≠ slash then some (none, s)
    else
      match o2fs_GetRoot rootFS root s with
      | none => none
      | some (status, curNode, s) =>
        if status < 0 then none else vfs_LookupLoop (start.length + 1) curNode start s

end BoringOs.Vfs
