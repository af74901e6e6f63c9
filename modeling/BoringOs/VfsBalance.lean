import BoringOs.BufCacheInvariant
import BoringOs.Vfs

/-! The references to buffers that `VFS_Stat`, an open with its close and a failed `O2FS_Mount`
leave behind. -/

namespace BoringOs.Vfs

open BufCache O2fs List Function Option

def vfs_Stat (rootFS : VFS) (root : Option VNode) (path : List UInt8) (s : BufState) :
    Option (Int × Option Stat × BufState) :=
  match vfs_Lookup rootFS root path s with
  | none => none
  | some (none, s) => some (-ENOENT, none, s)
  | some (some vn, s) => (o2fs_Stat vn s).map (fun sb => (0, some sb, s))

def o2fs_Open (_ : VNode) (s : BufState) : Int × BufState := (0, s)

def o2fs_Close (_ : VNode) (s : BufState) : Int × BufState := (0, s)

/-- `VFSUIO_Open`, given whether `Handle_Alloc` has a handle, with the vnode that the handle
gets. -/
def vfsuio_Open (handle : Bool) (rootFS : VFS) (root : Option VNode) (path : List UInt8)
    (s : BufState) : Option (Int × Option VNode × BufState) :=
  if handle then
    match vfs_Lookup rootFS root path s with
    | none => none
    | some (none, s) => some (-ENOENT, none, s)
    | some (some vn, s) =>
      match o2fs_Open vn s with
      | (status, s) => if status ≠ 0 then some (status, none, s) else some (0, some vn, s)
  else some (-ENOMEM, none, s)

def vfsuio_Close (vn : VNode) (s : BufState) : Int × BufState := o2fs_Close vn s

/-- `VFSUIO_Open` and, if there is a handle now, the close of it. -/
def openClose (handle : Bool) (rootFS : VFS) (root : Option VNode) (path : List UInt8)
    (s : BufState) : Option (Int × BufState) :=
  match vfsuio_Open handle rootFS root path s with
  | none => none
  | some (status, none, s) => some (status, s)
  | some (_, some vn, s) => some (vfsuio_Close vn s)

/-- Every entry has as many references as before. -/
def Balanced (s t : BufState) : Prop := ∀ e, (t.entry e).refCount = (s.entry e).refCount

structure Pinned (bufBase : Nat) (s t : BufState) (taken : List EntryId) : Prop where
  inv : RepInv bufBase t
  bound : ∀ e ∈ taken, e < CACHEENTRIES
  counts : ∀ e, (t.entry e).refCount = (s.entry e).refCount + taken.count e

variable {status : Int} {path : List UInt8} {rootFS : VFS} {fn result : Option VNode} {rounds i : Nat} {bitmap : Nat → Option EntryId}

section

variable {bufBase : Nat} {s t u : BufState} {taken more : List EntryId}

theorem Pinned.balanced_iff (pinned : Pinned bufBase s t taken) : Balanced s t ↔ taken = [] := by
  constructor
  · intro balanced
    refine eq_nil_iff_forall_not_mem.mpr (fun e member => ?_)
    have counted := pinned.counts e
    have once := count_pos_iff.mpr member
    rw [balanced e] at counted
    omega
  · rintro rfl e
    simpa using pinned.counts e

theorem Pinned.none (inv : RepInv bufBase s) : Pinned bufBase s s [] where
  inv := inv
  bound := by simp
  counts := by simp

theorem Pinned.trans (first : Pinned bufBase s t taken) (second : Pinned bufBase t u more) :
    Pinned bufBase s u (taken ++ more) where
  inv := second.inv
  bound e member := by
    rcases mem_append.mp member with member | member
    · exact first.bound e member
    · exact second.bound e member
  counts e := by rw [second.counts e, first.counts e, count_append, add_assoc]

theorem Pinned.release {e : EntryId} (pinned : Pinned bufBase s t (e :: taken)) :
    Pinned bufBase s (bufCache_Release t e) taken where
  inv := by
    refine release_inv pinned.inv (pinned.bound e (by simp)) ?_
    rw [pinned.counts e, count_cons_self]
    omega
  bound x member := pinned.bound x (mem_cons_of_mem e member)
  counts x := by
    have counted := pinned.counts x
    rw [count_cons] at counted
    simp only [bufCache_Release, recount_refCount]
    by_cases same : x = e
    · subst x
      simp only [beq_self_eq_true, ↓reduceIte] at counted ⊢
      omega
    · have apart : (e == x) = false := by simpa using Ne.symm same
      rw [apart] at counted
      rw [if_neg same, counted]
      simp

theorem bufCache_Read_pinned (inv : RepInv bufBase s) (disk : DiskId) (offset : Nat) :
    Pinned bufBase s (bufCache_Read s disk offset).2.2
      (bufCache_Read s disk offset).2.1.toList := by
  refine ⟨bufCache_Read_inv inv disk offset, ?_, ?_⟩
  · rcases bufCache_Read_cases inv disk offset with
      ⟨e, bound, _, _, result⟩ | ⟨_, _, result⟩ | ⟨_, e, rest, head, result⟩
    · simpa [result] using bound
    · simp [result]
    · simpa [result] using inv.lruEntries e (by simp [head])
  · intro x
    rcases bufCache_Read_cases inv disk offset with
      ⟨e, _, _, _, result⟩ | ⟨_, _, result⟩ | ⟨_, e, rest, head, result⟩
    · rw [result]
      by_cases same : x = e
      · simp [retainEntry, same]
      · simp [retainEntry, same, Ne.symm same]
    · simp [result]
    · obtain ⟨entries, _, _⟩ := diskRead_lists
        (recycleEntry { s with cacheMiss := s.cacheMiss + 1 } e rest disk offset) disk
        (s.entry e).buffer offset BLOCKSIZE
      have free := (inv.lru_head head).2.1
      rw [result]
      simp only [entries, recycleEntry_entry, Option.toList_some]
      by_cases same : x = e
      · subst x
        simp [free]
      · simp [same, Ne.symm same]

theorem bufCache_Read_failed (inv : RepInv bufBase s) (disk : DiskId) (offset : Nat)
    (failed : (bufCache_Read s disk offset).1 < 0) :
    ∃ e, (bufCache_Read s disk offset).2.1 = some e := by
  rcases bufCache_Read_cases inv disk offset with
    ⟨e, _, _, _, result⟩ | ⟨_, _, result⟩ | ⟨_, e, rest, _, result⟩
  · exact ⟨e, by rw [result]⟩
  · rw [result] at failed
    exact absurd failed (not_lt.mpr (by decide : (0 : Int) ≤ ENOMEM))
  · exact ⟨e, by rw [result]⟩

theorem loadBNode_pinned (inv : RepInv bufBase s) {disk : DiskId} {offset : Nat}
    {entry : Option EntryId} (ran : loadBNode disk offset s = some (status, entry, t)) :
    (status < 0 ∧ entry = none ∧ ∃ taken, Pinned bufBase s t taken ∧
      (taken = [] ↔ 0 ≤ (bufCache_Read s disk offset).1)) ∨
    (∃ e, status = 0 ∧ entry = some e ∧ Pinned bufBase s t [e]) := by
  have read := bufCache_Read_pinned inv disk offset
  simp only [loadBNode] at ran
  split at ran
  · next failed =>
      left
      obtain ⟨e, found⟩ := bufCache_Read_failed inv _ _ failed
      simp only [some.injEq, Prod.mk.injEq] at ran
      obtain ⟨rfl, rfl, rfl⟩ := ran
      refine ⟨failed, rfl, _, read, ?_⟩
      rw [found]
      simp only [Option.toList_some, reduceCtorEq, false_iff]
      omega
  · next ok =>
      split at ran
      · cases ran
      · next e found =>
          rw [found, Option.toList_some] at read
          split at ran
          · simp only [some.injEq, Prod.mk.injEq] at ran
            obtain ⟨rfl, rfl, rfl⟩ := ran
            exact .inr ⟨e, rfl, rfl, read⟩
          · simp only [some.injEq, Prod.mk.injEq] at ran
            obtain ⟨rfl, rfl, rfl⟩ := ran
            exact .inl ⟨by decide, rfl, [], read.release, by simpa using ok⟩

end

/-- The search of `O2FS_Lookup` from block `b` on ends without a hit, and every entry that it
takes was read and is given back. -/
def lookupQuiet (dn : VNode) (name : List UInt8) : Nat → Nat → BufState → Bool
  | 0, _, _ => true
  | count + 1, b, s =>
    let entryPerBlock := toInt32 (sbBlockSize s.memory (bufferOf s dn.vfs.fsptr) / BDIRENTRY_SIZE)
    match o2fsResolveBuf dn b s with
    | (status, entry, s) =>
      match entry with
      | none => true
      | some e =>
        if status ≠ 0 then false
        else
          match Search.firstHit (dirProbe s.memory (bufferOf s e) name) entryPerBlock.toNat with
          | some _ => false
          | none => lookupQuiet dn name count (b + 1) (bufCache_Release s e)

def componentQuiet (curNode : Option VNode) (start : List UInt8) (s : BufState) : Bool :=
  let curName := start.takeWhile (fun c => c != slash)
  curName.length == 0 || 256 < curName.length ||
    match curNode with
    | none => true
    | some dn =>
      lookupQuiet dn curName (blocksOf (bnSize s.memory (bufferOf s dn.fsptr))
        (sbBlockSize s.memory (bufferOf s dn.vfs.fsptr))) 0 s

/-- The path is not absolute, or its first component is quiet in the root directory. -/
def pathQuiet (root : VNode) (path : List UInt8) (s : BufState) : Bool :=
  match path with
  | [] => true
  | c :: start => c != slash || componentQuiet (some root) start s

section

variable {bufBase : Nat} {s t : BufState}

section

variable (inv : RepInv bufBase s)
include inv

theorem o2fsLoadVNode_pinned {fs : VFS} {offset : Nat}
    (ran : o2fsLoadVNode fs offset s = some (fn, t)) : ∃ taken, Pinned bufBase s t taken := by
  obtain ⟨⟨status, entry, u⟩, loaded, same⟩ := map_eq_some_iff.mp ran
  simp only [Prod.mk.injEq] at same
  obtain ⟨_, rfl⟩ := same
  rcases loadBNode_pinned inv loaded with ⟨_, _, taken, kept, _⟩ | ⟨e, _, _, kept⟩
  · exact ⟨taken, kept⟩
  · exact ⟨[e], kept⟩

theorem lookupLoop_pinned {dn : VNode} {name : List UInt8} {count b : Nat} {found : Option Nat}
    (ran : lookupLoop dn name count b s = some (status, found, t)) :
    ∃ taken, Pinned bufBase s t taken ∧ (taken = [] ↔ lookupQuiet dn name count b s = true) ∧
      (taken = [] → found = none) := by
  induction count generalizing b s with
  | zero =>
    simp only [lookupLoop, some.injEq, Prod.mk.injEq] at ran
    obtain ⟨_, rfl, rfl⟩ := ran
    exact ⟨[], .none inv, by simp [lookupQuiet], fun _ => rfl⟩
  | succ count ih =>
    have read := bufCache_Read_pinned inv dn.disk (bnDirect s.memory (bufferOf s dn.fsptr) b)
    rcases result : bufCache_Read s dn.disk (bnDirect s.memory (bufferOf s dn.fsptr) b) with
      ⟨readStatus, entry, u⟩
    rw [result] at read
    simp only [lookupLoop, o2fsResolveBuf, result] at ran
    simp only [lookupQuiet, o2fsResolveBuf, result]
    cases entry with
    | none =>
      split at ran
      · simp only [some.injEq, Prod.mk.injEq] at ran
        obtain ⟨_, rfl, rfl⟩ := ran
        exact ⟨[], read, by simp, fun _ => rfl⟩
      · cases ran
    | some e =>
      dsimp only [Option.toList_some] at read ran ⊢
      split at ran
      · next failed =>
          simp only [some.injEq, Prod.mk.injEq] at ran
          obtain ⟨_, rfl, rfl⟩ := ran
          exact ⟨[e], read, by simp [failed], fun _ => rfl⟩
      · next ok =>
          rw [if_neg ok]
          cases search : Search.firstHit (dirProbe u.memory (bufferOf u e) name)
              (toInt32 (sbBlockSize s.memory (bufferOf s dn.vfs.fsptr) / BDIRENTRY_SIZE)).toNat with
          | some offset =>
            simp only [search, some.injEq, Prod.mk.injEq] at ran ⊢
            obtain ⟨_, rfl, rfl⟩ := ran
            exact ⟨[e], read, by simp, by simp⟩
          | none =>
            simp only [search] at ran ⊢
            obtain ⟨taken, pinned, quiet, missing⟩ := ih read.release.inv ran
            exact ⟨taken, by simpa using read.release.trans pinned, quiet, missing⟩

theorem o2fs_Lookup_pinned {dn : VNode} {name : List UInt8}
    (ran : o2fs_Lookup dn name s = some (status, fn, t)) :
    ∃ taken, Pinned bufBase s t taken ∧ (taken = [] ↔
      lookupQuiet dn name (blocksOf (bnSize s.memory (bufferOf s dn.fsptr))
        (sbBlockSize s.memory (bufferOf s dn.vfs.fsptr))) 0 s = true) ∧ (taken = [] → fn = none) := by
  simp only [o2fs_Lookup] at ran
  split at ran
  · cases ran
  · split at ran
    · cases ran
    · next searched =>
        cases ran
        obtain ⟨taken, pinned, quiet, _⟩ := lookupLoop_pinned inv searched
        exact ⟨taken, pinned, quiet, fun _ => rfl⟩
    · next searched =>
        obtain ⟨⟨node, v⟩, loaded, same⟩ := map_eq_some_iff.mp ran
        cases same
        obtain ⟨taken, pinned, quiet, missing⟩ := lookupLoop_pinned inv searched
        obtain ⟨more, kept⟩ := o2fsLoadVNode_pinned pinned.inv loaded
        have held : taken ≠ [] := fun empty => by cases missing empty
        refine ⟨_, pinned.trans kept, ?_, ?_⟩
        · rw [← quiet]
          simp [held]
        · simp [held]

theorem vfs_LookupLoop_pinned {curNode result : Option VNode} {start : List UInt8}
    (ran : vfs_LookupLoop rounds curNode start s = some (result, t)) :
    ∃ taken, Pinned bufBase s t taken ∧
      (taken = [] ↔ componentQuiet curNode start s = true) := by
  induction rounds generalizing curNode start s with
  | zero => simp [vfs_LookupLoop] at ran
  | succ rounds ih =>
    simp only [vfs_LookupLoop] at ran
    simp only [componentQuiet]
    split at ran
    · next empty =>
        simp only [some.injEq, Prod.mk.injEq] at ran
        obtain ⟨_, rfl⟩ := ran
        exact ⟨[], .none inv, by simp [empty]⟩
    · next named =>
        split at ran
        · next long =>
            simp only [some.injEq, Prod.mk.injEq] at ran
            obtain ⟨_, rfl⟩ := ran
            exact ⟨[], .none inv, by simp [long]⟩
        · next short =>
            split at ran
            · cases ran
            · cases curNode with
              | none => cases ran
              | some dn =>
                dsimp only at ran
                have reached : ((start.takeWhile (fun c => c != slash)).length == 0 ||
                    decide (256 < (start.takeWhile (fun c => c != slash)).length)) = false := by
                  simp only [Bool.or_eq_false_iff, beq_eq_false_iff_ne, decide_eq_false_iff_not]
                  exact ⟨named, short⟩
                rw [reached, Bool.false_or]
                split at ran
                · cases ran
                · next status found u looked =>
                    obtain ⟨taken, pinned, quiet, missing⟩ := o2fs_Lookup_pinned inv looked
                    rw [← quiet]
                    split at ran
                    · simp only [some.injEq, Prod.mk.injEq] at ran
                      obtain ⟨_, rfl⟩ := ran
                      exact ⟨taken, pinned, Iff.rfl⟩
                    · split at ran
                      · simp only [some.injEq, Prod.mk.injEq] at ran
                        obtain ⟨_, rfl⟩ := ran
                        exact ⟨taken, pinned, Iff.rfl⟩
                      · obtain ⟨more, kept, rest⟩ := ih pinned.inv ran
                        refine ⟨taken ++ more, pinned.trans kept, ?_⟩
                        rw [append_eq_nil_iff, and_iff_left_of_imp]
                        intro nothing
                        -- without a vnode the next component reads nothing
                        rw [missing nothing] at rest
                        exact rest.mpr (by simp [componentQuiet])

theorem vfs_Lookup_pinned {root : VNode}
    (ran : vfs_Lookup rootFS (some root) path s = some (result, t)) :
    ∃ taken, Pinned bufBase s t taken ∧ (taken = [] ↔ pathQuiet root path s = true) := by
  cases path with
  | nil =>
    simp only [vfs_Lookup, some.injEq, Prod.mk.injEq] at ran
    obtain ⟨_, rfl⟩ := ran
    exact ⟨[], .none inv, by simp [pathQuiet]⟩
  | cons c start =>
    simp only [vfs_Lookup, o2fs_GetRoot] at ran
    split at ran
    · next relative =>
        simp only [some.injEq, Prod.mk.injEq] at ran
        obtain ⟨_, rfl⟩ := ran
        exact ⟨[], .none inv, by simp [pathQuiet, relative]⟩
    · next absolute =>
        obtain ⟨taken, pinned, quiet⟩ := vfs_LookupLoop_pinned inv ran
        have first : c = slash := not_not.mp absolute
        exact ⟨taken, pinned, by simp [pathQuiet, first, quiet]⟩

theorem vfs_Lookup_balanced_iff {root : VNode}
    (ran : vfs_Lookup rootFS (some root) path s = some (result, t)) :
    Balanced s t ↔ pathQuiet root path s = true := by
  obtain ⟨taken, pinned, quiet⟩ := vfs_Lookup_pinned inv ran
  rw [pinned.balanced_iff, quiet]

end

theorem vfs_Stat_lookup {root : Option VNode}
    {sb : Option Stat} (ran : vfs_Stat rootFS root path s = some (status, sb, t)) :
    ∃ result, vfs_Lookup rootFS root path s = some (result, t) := by
  simp only [vfs_Stat] at ran
  split at ran
  · cases ran
  · next u looked =>
      simp only [some.injEq, Prod.mk.injEq] at ran
      obtain ⟨_, _, rfl⟩ := ran
      exact ⟨_, looked⟩
  · next vn u looked =>
      obtain ⟨_, _, same⟩ := map_eq_some_iff.mp ran
      simp only [Prod.mk.injEq] at same
      obtain ⟨_, _, rfl⟩ := same
      exact ⟨_, looked⟩

theorem openClose_lookup {root : Option VNode}
    (ran : openClose true rootFS root path s = some (status, t)) :
    ∃ result, vfs_Lookup rootFS root path s = some (result, t) := by
  simp only [openClose, vfsuio_Open, o2fs_Open, vfsuio_Close, o2fs_Close] at ran
  cases looked : vfs_Lookup rootFS root path s with
  | none => simp [looked] at ran
  | some pair =>
    obtain ⟨result, u⟩ := pair
    cases result with
    | none =>
      simp only [looked, ↓reduceIte, some.injEq, Prod.mk.injEq] at ran
      obtain ⟨_, rfl⟩ := ran
      exact ⟨_, rfl⟩
    | some vn =>
      simp only [looked, ↓reduceIte, ne_eq, not_true_eq_false, some.injEq,
        Prod.mk.injEq] at ran
      obtain ⟨_, rfl⟩ := ran
      exact ⟨_, rfl⟩

end

/-- The slots of `fs->bitmap` when the bitmap loop of `O2FS_Mount` fails and goes on to release
all 16 of them. -/
def failedBitmap (disk : DiskId) (sb : EntryId) (s : BufState) : Option (Nat → Option EntryId) :=
  let results := (bitmapReads disk sb 17 0 s).map fun read => bufCache_Read read.1 disk read.2
  if results.any (·.1 < 0) then some fun i => results.dropLast[i]?.bind (·.2.1) else none

/-- The same, for the whole of `O2FS_Mount`. -/
def mountFailedBitmap (disk : DiskId) (s : BufState) : Option (Nat → Option EntryId) :=
  match bufCache_Read s disk 0 with
  | (status, entry, s) =>
    if status < 0 then none
    else
      match entry with
      | none => none
      | some sb =>
        if superBlockOk s.memory (bufferOf s sb) then failedBitmap disk sb s
        else none

/-- A failing `O2FS_Mount` fails at the check of the superblock, or at the check of the root
after a bitmap loop that took no entry. -/
def mountQuiet (disk : DiskId) (s : BufState) : Bool :=
  match bufCache_Read s disk 0 with
  | (status, entry, s) =>
    if status < 0 then false
    else
      match entry with
      | none => true
      | some sb =>
        if superBlockOk s.memory (bufferOf s sb) then
          match mountBitmap disk sb 17 0 (fun _ => none) s with
          | some (some bitmap, s) => (List.range 16).all (fun i => (bitmap i).isNone) &&
              decide (0 ≤ (bufCache_Read s disk (sbRootOffset s.memory (bufferOf s sb))).1)
          | _ => true
        else true

section

variable {bufBase : Nat} {s t : BufState} {disk : DiskId} {sb : EntryId}

theorem releaseBitmap_null (bound : i < 16)
    (null : bitmap i = none) (s : BufState) : releaseBitmap bitmap s = none := by
  have faults : ∀ (slots : List Nat) (s : BufState), i ∈ slots →
      slots.foldlM (fun s j => (bitmap j).map (bufCache_Release s)) s = none := by
    intro slots
    induction slots with
    | nil => intro s member; cases member
    | cons j rest ih =>
      intro s member
      cases slot : bitmap j with
      | none => simp [slot]
      | some e =>
        have later : i ∈ rest := by
          rcases mem_cons.mp member with same | later
          · rw [same, slot] at null
            cases null
          · exact later
        simpa [slot] using ih (bufCache_Release s e) later
  exact faults _ s (mem_range.mpr bound)

theorem mountBitmap_pinned {result : Option (Nat → Option EntryId)} (inv : RepInv bufBase s)
    (fresh : ∀ j, i ≤ j → bitmap j = none)
    (ran : mountBitmap disk sb rounds i bitmap s = some (result, t)) :
    ∃ slots taken, result = some slots ∧ Pinned bufBase s t taken ∧
      (∀ j < i, slots j = bitmap j) ∧ (taken = [] ↔ ∀ j < 16, i ≤ j → slots j = none) := by
  induction rounds generalizing i bitmap s with
  | zero => simp [mountBitmap] at ran
  | succ rounds ih =>
    simp only [mountBitmap] at ran
    split at ran
    · split at ran
      · cases ran
      · next bound =>
          have read := bufCache_Read_pinned inv disk
            (add64 (sbBitmapOffset s.memory (bufferOf s sb))
              (mul64 i (sbBlockSize s.memory (bufferOf s sb))))
          rcases found : bufCache_Read s disk (add64 (sbBitmapOffset s.memory (bufferOf s sb))
              (mul64 i (sbBlockSize s.memory (bufferOf s sb)))) with ⟨status, entry, u⟩
          rw [found] at read
          simp only [found] at ran
          split at ran
          · rw [releaseBitmap_null (not_le.mp bound) (fresh i le_rfl)] at ran
            cases ran
          · obtain ⟨slots, taken, rfl, pinned, before, kept⟩ := ih read.inv
              (fun j after => by rw [update_of_ne (by omega), fresh j (by omega)]) ran
            have here : slots i = entry := by
              rw [before i (by omega), update_self]
            refine ⟨slots, _, rfl, read.trans pinned, ?_, ?_⟩
            · intro j earlier
              rw [before j (by omega), update_of_ne (by omega)]
            · rw [append_eq_nil_iff, kept]
              constructor
              · rintro ⟨nothing, rest⟩ j small from_i
                rcases eq_or_lt_of_le from_i with rfl | after
                · rw [here]
                  simpa using nothing
                · exact rest j small after
              · intro all
                refine ⟨?_, fun j small after => all j small (by omega)⟩
                rw [← here, all i (by omega) le_rfl]
                rfl
    · simp only [some.injEq, Prod.mk.injEq] at ran
      obtain ⟨rfl, rfl⟩ := ran
      exact ⟨bitmap, [], rfl, .none inv, fun _ _ => rfl, by simpa using fun j _ => fresh j⟩

theorem bitmapReads_length : (bitmapReads disk sb rounds i s).length ≤ 16 - i := by
  induction rounds generalizing i s with
  | zero => exact Nat.zero_le _
  | succ rounds ih =>
    rw [bitmapReads]
    dsimp only
    split
    · split
      · exact Nat.zero_le _
      · rw [length_cons]
        split
        · rw [length_nil]
          omega
        · exact (Nat.succ_le_succ ih).trans (by omega)
    · exact Nat.zero_le _

theorem mountBitmap_failed (fresh : ∀ j, i ≤ j → bitmap j = none)
    (failed : ∃ read ∈ bitmapReads disk sb rounds i s, (bufCache_Read read.1 disk read.2).1 < 0) :
    mountBitmap disk sb rounds i bitmap s = none := by
  induction rounds generalizing i bitmap s with
  | zero => rfl
  | succ rounds ih =>
    rw [bitmapReads] at failed
    rw [mountBitmap]
    dsimp only at failed ⊢
    split at failed
    · next more =>
        rw [if_pos more]
        split at failed
        · next full => rw [if_pos full]
        · next bound =>
            rw [if_neg bound]
            rcases read : bufCache_Read s disk (add64 (sbBitmapOffset s.memory (bufferOf s sb))
              (mul64 i (sbBlockSize s.memory (bufferOf s sb)))) with ⟨status, entry, u⟩
            simp only [exists_mem_cons_iff, read] at failed ⊢
            by_cases negative : status < 0
            · rw [if_pos negative, releaseBitmap_null (not_le.mp bound) (fresh i le_rfl)]
              rfl
            · rw [if_neg negative] at failed ⊢
              exact ih (fun j after => by rw [update_of_ne (by omega), fresh j (by omega)])
                (failed.resolve_left negative)
    · obtain ⟨_, none, _⟩ := failed
      cases none

theorem failedBitmap_null {slots : Nat → Option EntryId} (failed : failedBitmap disk sb s = some slots) :
    (∃ j < 16, slots j = none) ∧ mountBitmap disk sb 17 0 (fun _ => none) s = none := by
  have short := @bitmapReads_length 17 0 s disk sb
  have faults := @mountBitmap_failed 17 0 (fun _ => none) s disk sb (fun _ _ => rfl)
  unfold failedBitmap at failed
  generalize bitmapReads disk sb 17 0 s = reads at *
  simp only [List.any_map, List.any_eq_true, comp_apply, decide_eq_true_eq] at failed
  split at failed
  · next negative =>
      cases failed
      refine ⟨⟨15, by decide, ?_⟩, faults negative⟩
      dsimp only
      rw [getElem?_eq_none (by rw [length_dropLast, length_map]; omega), bind_none]
  · cases failed

theorem mountFailedBitmap_null {slots : Nat → Option EntryId}
    (failed : mountFailedBitmap disk s = some slots) :
    (∃ i < 16, slots i = none) ∧ o2fs_Mount disk s = none := by
  rcases result : bufCache_Read s disk 0 with ⟨status, entry, u⟩
  simp only [mountFailedBitmap, result] at failed
  simp only [o2fs_Mount, result]
  split at failed
  · cases failed
  · next ok =>
      rw [if_neg ok]
      cases entry with
      | none => cases failed
      | some sb =>
        dsimp only at failed ⊢
        split at failed
        · next good =>
            obtain ⟨null, faults⟩ := failedBitmap_null failed
            rw [if_pos good, faults]
            exact ⟨null, rfl⟩
        · cases failed

theorem o2fs_Mount_cases {result : Option (VFS × VNode)} (inv : RepInv bufBase s)
    (ran : o2fs_Mount disk s = some (result, t)) :
    (result = none ∧ ∃ taken, Pinned bufBase s t taken ∧
      (taken = [] ↔ mountQuiet disk s = true)) ∨
    (∃ fs e taken, result = some (fs, ⟨disk, e, fs⟩) ∧
      Pinned bufBase s t (fs.fsptr :: (taken ++ [e]))) := by
  have read := bufCache_Read_pinned inv disk 0
  have negative := bufCache_Read_failed inv disk 0
  rcases first : bufCache_Read s disk 0 with ⟨status, entry, u⟩
  rw [first] at read negative
  simp only [o2fs_Mount, first] at ran
  simp only [mountQuiet, first]
  split at ran
  · next failed =>
      simp only [some.injEq, Prod.mk.injEq] at ran
      obtain ⟨rfl, rfl⟩ := ran
      obtain ⟨e, rfl⟩ := negative failed
      exact .inl ⟨rfl, [e], read, by simp [failed]⟩
  · next ok =>
      rw [if_neg ok]
      cases entry with
      | none => cases ran
      | some sb =>
        dsimp only [Option.toList_some] at read ran ⊢
        split at ran
        · next good =>
            rw [if_pos good]
            cases loop : mountBitmap disk sb 17 0 (fun _ => none) u with
            | none => simp [loop] at ran
            | some pair =>
              obtain ⟨slots, v⟩ := pair
              obtain ⟨bitmap, taken, rfl, pinned, _, kept⟩ :=
                mountBitmap_pinned read.inv (fun _ _ => rfl) loop
              have empty : (range 16).all (fun i => (bitmap i).isNone) = true ↔
                  taken = [] := by
                simp [kept]
              simp only [loop] at ran ⊢
              split at ran
              · cases ran
              · next status root w rootRead =>
                  obtain ⟨⟨_, entry, _⟩, checked, same⟩ := map_eq_some_iff.mp rootRead
                  simp only [Prod.mk.injEq] at same
                  obtain ⟨rfl, rfl, rfl⟩ := same
                  rcases loadBNode_pinned pinned.inv checked with
                    ⟨negative, _, more, left, refused⟩ | ⟨e, rfl, rfl, left⟩
                  · rw [if_pos negative] at ran
                    simp only [some.injEq, Prod.mk.injEq] at ran
                    obtain ⟨rfl, rfl⟩ := ran
                    refine .inl ⟨rfl, taken ++ more, (read.trans (pinned.trans left)).release, ?_⟩
                    rw [append_eq_nil_iff, Bool.and_eq_true, empty, refused,
                      decide_eq_true_iff]
                  · simp only [map_some, lt_irrefl, ↓reduceIte, some.injEq,
                      Prod.mk.injEq] at ran
                    obtain ⟨rfl, rfl⟩ := ran
                    exact .inr ⟨_, e, taken, rfl, read.trans (pinned.trans left)⟩
        · next bad =>
            simp only [some.injEq, Prod.mk.injEq] at ran
            obtain ⟨rfl, rfl⟩ := ran
            exact .inl ⟨rfl, [], read.release, by simp [bad]⟩

theorem o2fs_Mount_balanced_iff (inv : RepInv bufBase s)
    (ran : o2fs_Mount disk s = some (none, t)) : Balanced s t ↔ mountQuiet disk s = true := by
  rcases o2fs_Mount_cases inv ran with ⟨_, taken, pinned, quiet⟩ | ⟨_, _, _, impossible, _⟩
  · rw [pinned.balanced_iff, quiet]
  · cases impossible

end

/-- What each of the calls leaves behind, from every cache that keeps its invariant. `VFS_Stat`
and an open with its close never drop a reference of a path whose first component is found in the
root directory, or whose search reads a block in vain. A mount that fails never drops the
superblock whose read failed, nor the bitmap and the root that it had read; one that fails in
the bitmap releases a NULL slot. -/
theorem vfs_references_balanced_iff (bufBase : Nat) (s : BufState) (inv : RepInv bufBase s) :
    (∀ rootFS root path status sb t,
      vfs_Stat rootFS (some root) path s = some (status, sb, t) →
        (Balanced s t ↔ pathQuiet root path s = true)) ∧
    (∀ handle rootFS root path status t,
      openClose handle rootFS (some root) path s = some (status, t) →
        (Balanced s t ↔ handle = false ∨ pathQuiet root path s = true)) ∧
    (∀ disk t, o2fs_Mount disk s = some (none, t) → (Balanced s t ↔ mountQuiet disk s = true)) ∧
    (∀ disk, (∀ slots, mountFailedBitmap disk s = some slots → ∀ i < 16, slots i ≠ none) ↔
      mountFailedBitmap disk s = none) := by
  refine ⟨?_, ?_, ?_, ?_⟩
  · intro rootFS root path status sb t ran
    obtain ⟨result, looked⟩ := vfs_Stat_lookup ran
    exact vfs_Lookup_balanced_iff inv looked
  · intro handle rootFS root path status t ran
    cases handle with
    | false =>
      simp only [openClose, vfsuio_Open, Bool.false_eq_true, ↓reduceIte, some.injEq,
        Prod.mk.injEq] at ran
      obtain ⟨_, rfl⟩ := ran
      simp [Balanced]
    | true =>
      obtain ⟨result, looked⟩ := openClose_lookup ran
      simpa using vfs_Lookup_balanced_iff inv looked
  · intro disk t ran
    exact o2fs_Mount_balanced_iff inv ran
  · intro disk
    constructor
    · intro whole
      cases failed : mountFailedBitmap disk s with
      | none => rfl
      | some slots =>
        obtain ⟨⟨i, bound, null⟩, _⟩ := mountFailedBitmap_null failed
        exact absurd null (whole slots failed i bound)
    · intro nothing slots failed
      rw [nothing] at failed
      cases failed

def oneFile : BufState :=
  let node (memory : ByteMemory.Memory) (offset : Nat) : ByteMemory.Memory :=
    ByteMemory.storeBytes (ByteMemory.storeLE memory (offset + 8) 2 1) offset BNODE_MAGIC
  let blank : ByteMemory.Memory := fun _ => 0
  let super := ByteMemory.storeLE (ByteMemory.storeLE (ByteMemory.storeLE
    (ByteMemory.storeBytes blank 0 SUPERBLOCK_MAGIC) 8 2 1) 32 8 512) 104 8 16384
  let root := ByteMemory.storeLE (ByteMemory.storeLE (node super 16384) (16384 + 16) 8 512)
    (directAt 16384 0) 8 32768
  let dir := ByteMemory.storeLE (ByteMemory.storeBytes (ByteMemory.storeBytes root 32768 BDIR_MAGIC)
    (dirName 32768) [97]) (32768 + 48) 8 49152
  bufCacheInit 65536 blank (fun _ => node dir 49152) (fun _ => 0) (fun _ => 0)

theorem vfs_references_balanced_iff_missing :
    ∃ fs root t status sb u, o2fs_Mount 0 oneFile = some (some (fs, root), t) ∧
      vfs_Stat fs (some root) [slash, 98] t = some (status, sb, u) ∧ Balanced t u := by
  have searched : (o2fs_Mount 0 oneFile).any (fun mount => mount.1.any fun fs =>
      (vfs_Stat fs.1 (some fs.2) [slash, 98] mount.2).isSome &&
        pathQuiet fs.2 [slash, 98] mount.2) = true := by decide +kernel
  obtain ⟨⟨_, t⟩, mounted, found⟩ := (Option.any_eq_true ..).mp searched
  obtain ⟨⟨fs, root⟩, rfl, both⟩ := (Option.any_eq_true ..).mp found
  obtain ⟨ends, quiet⟩ := Bool.and_eq_true_iff.mp both
  obtain ⟨⟨status, sb, u⟩, ran⟩ := isSome_iff_exists.mp ends
  rcases o2fs_Mount_cases (bufCacheInit_inv ..) mounted with ⟨impossible, _⟩ | ⟨_, _, _, _, pinned⟩
  · cases impossible
  · exact ⟨fs, root, t, status, sb, u, mounted, ran,
      ((vfs_references_balanced_iff 65536 t pinned.inv).1 _ _ _ _ _ _ ran).mpr quiet⟩

/-- The references of an entry before and after `VFS_Stat` of a path, on a new mount. -/
def statCounts (path : List UInt8) (s : BufState) (e : EntryId) : Option (Int × Nat × Nat) :=
  match o2fs_Mount 0 s with
  | some (some (fs, root), t) =>
    match vfs_Stat fs (some root) path t with
    | some (status, _, u) => some (status, (t.entry e).refCount, (u.entry e).refCount)
    | none => none
  | _ => none

theorem statCounts_ran {s : BufState} {e : EntryId}
    {before after : Nat} (counted : statCounts path s e = some (status, before, after)) :
    ∃ fs root t sb u, o2fs_Mount 0 s = some (some (fs, root), t) ∧
      vfs_Stat fs (some root) path t = some (status, sb, u) ∧
      (t.entry e).refCount = before ∧ (u.entry e).refCount = after := by
  simp only [statCounts] at counted
  split at counted
  · next fs root t mounted =>
      split at counted
      · next status sb u done =>
          simp only [some.injEq, Prod.mk.injEq] at counted
          obtain ⟨rfl, counts⟩ := counted
          exact ⟨fs, root, t, sb, u, mounted, done, counts⟩
      · cases counted
  · cases counted

/-- After `VFS_Stat` of the file the block of the root directory stays in the cache for good. -/
theorem vfs_stat_keeps_reference :
    ∃ fs root t sb u, o2fs_Mount 0 oneFile = some (some (fs, root), t) ∧
      vfs_Stat fs (some root) [slash, 97] t = some (0, sb, u) ∧ ¬ Balanced t u := by
  have counted : statCounts [slash, 97] oneFile 2 = some (0, 0, 1) := by decide +kernel
  obtain ⟨fs, root, t, sb, u, mounted, done, before, after⟩ := statCounts_ran counted
  refine ⟨fs, root, t, sb, u, mounted, done, fun balanced => ?_⟩
  have same := balanced 2
  omega

end BoringOs.Vfs
