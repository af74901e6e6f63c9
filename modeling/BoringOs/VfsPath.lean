import BoringOs.VfsBalance

/-! Path resolution: what `VFS_Lookup` returns, compared with a walk over the components. -/

namespace BoringOs.Vfs

open BufCache O2fs Option

/-- The pieces of a string between its slashes, empty ones included. -/
def pieces : List UInt8 → List (List UInt8)
  | [] => [[]]
  | c :: rest =>
    if c = slash then [] :: pieces rest
    else
      match pieces rest with
      | [] => [[c]]
      | piece :: more => (c :: piece) :: more

def components (path : List (List UInt8)) : List (List UInt8) := path.filter (fun piece => piece ≠ [])

/-- The walk from a node over the components, one directory lookup after another; NULL when a
lookup gives no node. -/
def resolve (node : VNode) : List (List UInt8) → BufState → Option VNode
  | [], _ => some node
  | name :: rest, s =>
    match o2fs_Lookup node name s with
    | some (_, some child, t) => resolve child rest t
    | _ => none

/-- The loop of `VFS_Lookup` on the pieces of the path that are left. -/
def lookupPieces : Option VNode → List (List UInt8) → BufState → Option (Option VNode × BufState)
  | curNode, [], s => some (curNode, s)
  | curNode, curName :: more, s =>
    if curName.length = 0 then some (curNode, s)
    else if curName.length > 256 then some (none, s)
    else if curName.length = 256 then none
    else
      match curNode with
      | none => none
      | some oldNode =>
        match o2fs_Lookup oldNode curName s with
        | none => none
        | some (status, curNode, s) =>
          if status < 0 then some (none, s) else lookupPieces curNode more s

def endsAt : List (List UInt8) → Bool
  | [] => true
  | name :: _ => name.length == 0 || 256 < name.length

/-- The paths that are resolved as they should be, piece by piece: an empty piece only where the
rest of the walk stays at its node, a piece longer than the limit only where the walk fails, none
of 256 bytes, and a lookup that gives no node without a negative status only before the end. -/
def Resolvable : VNode → List (List UInt8) → BufState → Prop
  | _, [], _ => True
  | node, name :: more, s =>
    if name.length = 0 then resolve node (components more) s = some node
    else if name.length > 256 then resolve node (components (name :: more)) s = none
    else if name.length = 256 then False
    else
      match o2fs_Lookup node name s with
      | none => False
      | some (status, child, t) =>
        status < 0 ∨
        match child with
        | none => endsAt more = true
        | some child => Resolvable child more t

theorem pieces_eq (path : List UInt8) :
    pieces path = path.takeWhile (fun c => c != slash) ::
      match path.drop (path.takeWhile (fun c => c != slash)).length with
      | [] => []
      | _ :: rest => pieces rest := by
  induction path with
  | nil => rfl
  | cons c rest ih =>
    by_cases here : c = slash
    · subst c
      simp [pieces]
    · have passes : (c != slash) = true := by simpa using here
      have cut : (c :: rest).takeWhile (fun c => c != slash) =
          c :: rest.takeWhile (fun c => c != slash) := by
        rw [List.takeWhile_cons, if_pos passes]
      rw [cut, pieces, if_neg here, ih]
      rfl

theorem vfs_LookupLoop_pieces (rounds : Nat) : ∀ curNode start s, start.length < rounds →
    vfs_LookupLoop rounds curNode start s = lookupPieces curNode (pieces start) s := by
  induction rounds with
  | zero =>
    intro curNode start s short
    omega
  | succ rounds ih =>
    intro curNode start s short
    have whole := congrArg List.length
      (List.take_append_drop (start.takeWhile (fun c => c != slash)).length start)
    rw [pieces_eq, lookupPieces.eq_def, vfs_LookupLoop.eq_def]
    dsimp only
    split
    · rfl
    · split
      · rfl
      · split
        · rfl
        · cases curNode with
          | none => rfl
          | some oldNode =>
            dsimp only
            cases o2fs_Lookup oldNode (start.takeWhile (fun c => c != slash)) s with
            | none => rfl
            | some found =>
              obtain ⟨status, curNode, t⟩ := found
              dsimp only
              split
              · rfl
              · cases later : start.drop (start.takeWhile (fun c => c != slash)).length with
                | nil => rfl
                | cons c rest =>
                  rw [later, List.length_append, List.length_cons] at whole
                  exact ih curNode rest t (by omega)

theorem o2fs_Lookup_failed {dn : VNode} {name : List UInt8} {status : Int} {fn : Option VNode}
    {s t : BufState} (ran : o2fs_Lookup dn name s = some (status, fn, t)) (failed : status < 0) :
    fn = none := by
  unfold o2fs_Lookup at ran
  dsimp only at ran
  split at ran
  · cases ran
  · split at ran
    · cases ran
    · cases ran
      rfl
    · obtain ⟨_, _, same⟩ := map_eq_some_iff.mp ran
      cases same
      exact absurd failed (by decide)

theorem components_cons {name : List UInt8} (more : List (List UInt8)) (nonempty : name.length ≠ 0) :
    components (name :: more) = name :: components more := by
  unfold components
  rw [List.filter_cons_of_pos]
  simpa using nonempty

theorem lookupPieces_null (path : List (List UInt8)) (s : BufState) :
    (∃ t, lookupPieces none path s = some (none, t)) ↔ endsAt path = true := by
  cases path with
  | nil => exact ⟨fun _ => rfl, fun _ => ⟨s, rfl⟩⟩
  | cons name more =>
    rw [lookupPieces, endsAt, Bool.or_eq_true, beq_iff_eq, decide_eq_true_eq]
    by_cases empty : name.length = 0
    · rw [if_pos empty]
      exact ⟨fun _ => Or.inl empty, fun _ => ⟨s, rfl⟩⟩
    · rw [if_neg empty]
      by_cases long : name.length > 256
      · rw [if_pos long]
        exact ⟨fun _ => Or.inr long, fun _ => ⟨s, rfl⟩⟩
      · rw [if_neg long]
        constructor
        · rintro ⟨t, ran⟩
          split at ran <;> cases ran
        · intro ends
          omega

theorem lookupPieces_iff (path : List (List UInt8)) : ∀ (node : VNode) (s : BufState),
    (∃ t, lookupPieces (some node) path s = some (resolve node (components path) s, t)) ↔
      Resolvable node path s := by
  induction path with
  | nil =>
    intro node s
    exact ⟨fun _ => trivial, fun _ => ⟨s, rfl⟩⟩
  | cons name more ih =>
    intro node s
    rw [lookupPieces, Resolvable]
    by_cases empty : name.length = 0
    · obtain rfl : name = [] := List.length_eq_zero_iff.mp empty
      have same : components ([] :: more) = components more := rfl
      rw [if_pos empty, if_pos empty, same]
      constructor
      · rintro ⟨_, found⟩
        exact (Prod.mk.inj (some.inj found)).1.symm
      · intro found
        exact ⟨s, by rw [found]⟩
    · rw [if_neg empty, if_neg empty]
      by_cases long : name.length > 256
      · rw [if_pos long, if_pos long]
        constructor
        · rintro ⟨_, found⟩
          exact (Prod.mk.inj (some.inj found)).1.symm
        · intro failed
          exact ⟨s, by rw [failed]⟩
      · rw [if_neg long, if_neg long, components_cons more empty]
        by_cases limit : name.length = 256
        · rw [if_pos limit, if_pos limit]
          exact ⟨fun ⟨_, ran⟩ => (by cases ran), False.elim⟩
        · rw [if_neg limit, if_neg limit, resolve]
          cases found : o2fs_Lookup node name s with
          | none => exact ⟨fun ⟨_, ran⟩ => (by cases ran), False.elim⟩
          | some result =>
            obtain ⟨status, child, t⟩ := result
            dsimp only
            by_cases failed : status < 0
            · obtain rfl := o2fs_Lookup_failed found failed
              rw [if_pos failed]
              exact ⟨fun _ => Or.inl failed, fun _ => ⟨t, rfl⟩⟩
            · rw [if_neg failed, or_iff_right failed]
              cases child with
              | none => exact lookupPieces_null more t
              | some child => exact ih child t

/-- `VFS_Lookup` of a path that begins with a slash returns the node that the walk over its
components finds, or NULL, without a fault, exactly when the path is resolvable. -/
theorem vfs_lookup_resolves_iff (rootFS : VFS) (root : VNode) (start : List UInt8) (s : BufState) :
    (∃ t, vfs_Lookup rootFS (some root) (slash :: start) s =
      some (resolve root (components (pieces start)) s, t)) ↔
    Resolvable root (pieces start) s := by
  rw [← lookupPieces_iff (pieces start) root s,
    ← vfs_LookupLoop_pieces (start.length + 1) (some root) start s (Nat.lt_succ_self _)]
  rfl

/-- Twice the same slash: the walk goes on to the file, `VFS_Lookup` stays at the root. -/
theorem vfs_lookup_stops_at_slashes :
    ∃ fs root t node, o2fs_Mount 0 oneFile = some (some (fs, root), t) ∧
      vfs_Lookup fs (some root) [slash, slash, 97] t = some (some root, t) ∧
      resolve root (components (pieces [slash, 97])) t = some node ∧ node.fsptr ≠ root.fsptr := by
  have ends : ((o2fs_Mount 0 oneFile).any fun mount => mount.1.any fun found =>
      (resolve found.2 (components (pieces [slash, 97])) mount.2).any fun node =>
        decide (node.fsptr ≠ found.2.fsptr)) = true := by decide +kernel
  obtain ⟨⟨mounted, t⟩, ran, there⟩ := (any_eq_true ..).mp ends
  obtain ⟨⟨fs, root⟩, rfl, walked⟩ := (any_eq_true ..).mp there
  obtain ⟨node, found, different⟩ := (any_eq_true ..).mp walked
  have stays : vfs_Lookup fs (some root) [slash, slash, 97] t = some (some root, t) := by
    exact vfs_LookupLoop_pieces 3 (some root) [slash, 97] t (by decide)
  exact ⟨fs, root, t, node, ran, stays, found, of_decide_eq_true different⟩

end BoringOs.Vfs
