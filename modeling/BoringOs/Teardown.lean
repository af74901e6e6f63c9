import BoringOs.Isolation

/-! `PMap_DestroyAS` on an address space whose pages all come from `PMap_AllocMap`. -/

namespace BoringOs.PMap

open PAlloc RadixTree Runs List Option Nat

/-- The loops of `PMap_DestroyAS`: `body` is called with the entries that are present. -/
def eachEntry (table : Nat) (body : Nat → Frames → Option Frames) :
    Nat → Nat → Frames → Option Frames
  | 0, _, s => some s
  | left + 1, i, s =>
    let pte := s.memory table i
    if pte &&& PTE_P = PTE_P then (body pte s).bind (eachEntry table body left (i + 1))
    else eachEntry table body left (i + 1) s

def releaseEntry (below : Nat → Frames → Option Frames) (pte : Nat) (s : Frames) : Option Frames :=
  (below (tableOf pte) s).bind (pAlloc_Release (tableOf pte))

def releaseTable4 (tbl4 : Nat) (s : Frames) : Option Frames :=
  eachEntry tbl4 (releaseEntry (fun _ s => some s)) PAGETABLE_ENTRIES 0 s

def releaseTable3 (tbl3 : Nat) (s : Frames) : Option Frames :=
  eachEntry tbl3 (fun pte3 s => if pte3 &&& PTE_PS = 0 then releaseEntry releaseTable4 pte3 s else none)
    PAGETABLE_ENTRIES 0 s

def releaseTable2 (tbl2 : Nat) (s : Frames) : Option Frames :=
  eachEntry tbl2 (releaseEntry releaseTable3) PAGETABLE_ENTRIES 0 s

def pMap_DestroyAS (space root : Nat) (s : Frames) : Option Frames :=
  (eachEntry root (releaseEntry releaseTable2) (PAGETABLE_ENTRIES / 2) 0 s).bind (pAlloc_Release space)

def Off (s : Frames) (root : Nat) (done : List Nat → Prop) (pg : Nat) : Prop :=
  pg < 2 ^ 40 ∧ ∀ path, UserPath 4 path → done path → reach child s.memory root path ≠ some pg

/-- From `s` to `t` only pages at the ends of the paths in `done` were touched. -/
structure Freed (s : Frames) (root : Nat) (done : List Nat → Prop) (t : Frames) : Prop where
  memory : ∀ pg, Off s root done pg → t.memory pg = s.memory pg
  refCount : ∀ pg, Off s root done pg → t.refCount pg = s.refCount pg
  free : ∀ pg, Off s root done pg → pg ∈ t.freeList → pg ∈ s.freeList

section

variable {roots fixed : List Nat} {s t u : Frames} {root : Nat} {done more : List Nat → Prop}
  {path : List Nat}

theorem Freed.none (s : Frames) (root : Nat) : Freed s root (fun _ => False) s :=
  ⟨fun _ _ => rfl, fun _ _ => rfl, fun _ _ free => free⟩

theorem Freed.mono (freed : Freed s root done t) (grows : ∀ path, done path → more path) :
    Freed s root more t := by
  have off : ∀ pg, Off s root more pg → Off s root done pg :=
    fun pg off => ⟨off.1, fun path user member => off.2 path user (grows path member)⟩
  exact ⟨fun pg away => freed.memory pg (off pg away), fun pg away => freed.refCount pg (off pg away),
    fun pg away => freed.free pg (off pg away)⟩

theorem pAlloc_Release_frame {pg : Nat} (ran : pAlloc_Release pg t = some u) {other : Nat}
    (apart : other ≠ pg) : u.memory other = t.memory other ∧ u.refCount other = t.refCount other ∧
      (other ∈ u.freeList → other ∈ t.freeList) := by
  unfold pAlloc_Release at ran
  split at ran
  · dsimp only at ran
    split at ran
    · unfold pAllocFreePage at ran
      split at ran
      · cases ran
        refine ⟨?_, ?_, ?_⟩
        · simp [Frames.setMagic, Frames.setRefCount, apart]
        · simp [Frames.setMagic, Frames.setRefCount, apart]
        · simp [Frames.setMagic, Frames.setRefCount, apart]
      · cases ran
    · cases ran
      refine ⟨rfl, ?_, fun free => free⟩
      simp [Frames.setRefCount, apart]
  · cases ran

theorem tableOf_cases (pte : Nat) : tableOf pte = pageOf pte ∨ 2 ^ 40 ≤ tableOf pte := by
  have below : pte &&& PGNUMMASK < 2 ^ 64 := and_lt_two_pow pte (by decide)
  have word : pte &&& PGNUMMASK = pte % 2 ^ 64 &&& PGNUMMASK := by
    rw [← mod_eq_of_lt below, and_mod_two_pow]
    rfl
  have quotient : tableOf pte = pte % 2 ^ 64 / PGSIZE := by
    rw [tableOf, word]
    exact tableOf_eq (mod_lt pte (by decide))
  rw [quotient]
  unfold pageOf PGSIZE
  omega

theorem Freed.release {pg : Nat} (freed : Freed s root done t) (user : UserPath 4 path)
    (place : reach child s.memory root path = some pg ∨ 2 ^ 40 ≤ pg)
    (ran : pAlloc_Release pg t = some u) : Freed s root (fun q => done q ∨ q = path) u := by
  have apart : ∀ other, Off s root (fun q => done q ∨ q = path) other → other ≠ pg := by
    rintro other ⟨small, off⟩ rfl
    rcases place with here | large
    · exact off path user (.inr rfl) here
    · omega
  have before := freed.mono (fun q member => (.inl member : done q ∨ q = path))
  refine ⟨?_, ?_, ?_⟩
  · intro other off
    rw [(pAlloc_Release_frame ran (apart other off)).1]
    exact before.memory other off
  · intro other off
    rw [(pAlloc_Release_frame ran (apart other off)).2.1]
    exact before.refCount other off
  · intro other off free
    exact before.free other off ((pAlloc_Release_frame ran (apart other off)).2.2 free)

def Frees (s : Frames) (root : Nat) (path : List Nat) (below : Nat → Frames → Option Frames) : Prop :=
  ∀ table done t u, reach child s.memory root path = some table → (∀ q, done q → ¬ path <+: q) →
    Freed s root done t → below table t = some u →
    Freed s root (fun q => done q ∨ (path <+: q ∧ q ≠ path)) u

theorem snoc_prefix_inj {i j : Nat} {q : List Nat} (first : path ++ [i] <+: q)
    (second : path ++ [j] <+: q) : i = j := by
  have same := (prefix_of_prefix_length_le first second (by simp)).eq_of_length (by simp)
  simpa using same

theorem eachEntry_frees (inv : Inv 4 roots fixed s) (rooted : root ∈ roots)
    {below body : Nat → Frames → Option Frames} {n table : Nat}
    (user : ∀ i < n, UserPath 4 (path ++ [i]))
    (found : reach child s.memory root path = some table) (small : table < 2 ^ 40)
    (entries : ∀ i < n, path.length < 3 → s.memory table i = 0 ∨
      ∃ page < 2 ^ 40, s.memory table i = tableEntry page)
    (frees : ∀ i < n, Frees s root (path ++ [i]) below)
    (deep : 3 ≤ path.length → below = fun _ s => some s)
    (same : ∀ pte t u, body pte t = some u → releaseEntry below pte t = some u) :
    ∀ left i done t u, i + left = n → (∀ q, done q → path <+: q → ∃ j < i, path ++ [j] <+: q) →
      Freed s root done t → eachEntry table body left i t = some u →
      Freed s root (fun q => done q ∨ ∃ j < i + left, path ++ [j] <+: q) u := by
  intro left
  induction left with
  | zero =>
    intro i done t u _ _ freed ran
    cases ran
    exact freed.mono (fun q member => .inl member)
  | succ left ih =>
    intro i done t u total before freed ran
    have bound : i < n := by omega
    have here := user i bound
    -- nothing on the way touched this table
    have off : Off s root done table := by
      refine ⟨small, fun q inside member reached => ?_⟩
      obtain ⟨_, rfl⟩ := inv.forest.unique _ _ _ _ _ (.inl ⟨rooted, inside⟩)
        (.inl ⟨rooted, here.front⟩) reached found
      obtain ⟨j, _, onward⟩ := before q member (prefix_refl q)
      have short := onward.length_le
      rw [length_append, length_singleton] at short
      omega
    have word : t.memory table i = s.memory table i := by rw [freed.memory table off]
    have fresh : ∀ q, done q → ¬ path ++ [i] <+: q := by
      intro q member onward
      obtain ⟨j, earlier, onward'⟩ := before q member ((prefix_append path [i]).trans onward)
      have := snoc_prefix_inj onward onward'
      omega
    simp only [eachEntry, word] at ran
    have later : ∀ done' v, (∀ q, done' q → done q ∨ path ++ [i] <+: q) → Freed s root done' v →
        eachEntry table body left (i + 1) v = some u →
        Freed s root (fun q => done q ∨ ∃ j < i + (left + 1), path ++ [j] <+: q) u := by
      intro done' v inside freed' ran
      refine (ih (i + 1) done' v u (by omega) ?_ freed' ran).mono ?_
      · intro q member onward
        rcases inside q member with old | new
        · obtain ⟨j, earlier, onward'⟩ := before q old onward
          exact ⟨j, by omega, onward'⟩
        · exact ⟨i, by omega, new⟩
      · rintro q (member | ⟨j, less, onward⟩)
        · rcases inside q member with old | new
          · exact .inl old
          · exact .inr ⟨i, by omega, new⟩
        · exact .inr ⟨j, by omega, onward⟩
    split at ran
    · next present =>
        obtain ⟨v, released, ran⟩ := bind_eq_some_iff.mp ran
        obtain ⟨w, lower, release⟩ := bind_eq_some_iff.mp (same _ _ _ released)
        have nonzero : s.memory table i ≠ 0 := by
          intro zero
          rw [zero] at present
          exact absurd present (by decide)
        have reached : reach child s.memory root (path ++ [i]) =
            some (pageOf (s.memory table i)) := by
          rw [reach_snoc, found]
          exact if_neg nonzero
        have lowered : Freed s root (fun q => done q ∨ (path ++ [i] <+: q ∧ q ≠ path ++ [i])) w := by
          by_cases inner : path.length < 3
          · rcases entries i bound inner with zero | ⟨page, less, entry⟩
            · exact absurd zero nonzero
            · have name : tableOf (s.memory table i) = pageOf (s.memory table i) := by
                rw [entry, tableOf_tableEntry less, pageOf_tableEntry less]
              rw [name] at lower
              exact frees i bound _ _ _ _ reached fresh freed lower
          · rw [deep (not_lt.mp inner)] at lower
            cases lower
            exact freed.mono (fun q member => .inl member)
        have place : reach child s.memory root (path ++ [i]) = some (tableOf (s.memory table i)) ∨
            2 ^ 40 ≤ tableOf (s.memory table i) := by
          rcases tableOf_cases (s.memory table i) with name | large
          · rw [name]
            exact .inl reached
          · exact .inr large
        refine later _ v ?_ (lowered.release here place release) ran
        rintro q ((old | ⟨onward, _⟩) | rfl)
        · exact .inl old
        · exact .inr onward
        · exact .inr (prefix_refl _)
    · exact later done t (fun q member => .inl member) freed ran

theorem reach_small (rootSmall : root < 2 ^ 40) {table : Nat}
    (found : reach child s.memory root path = some table) : table < 2 ^ 40 := by
  induction path using reverseRecOn with
  | nil =>
    cases found
    exact rootSmall
  | append_singleton front i _ =>
    rw [reach_snoc] at found
    obtain ⟨above, _, named⟩ := bind_eq_some_iff.mp found
    unfold child at named
    split at named
    · cases named
    · cases named
      unfold pageOf PGSIZE
      omega

theorem frees_table (inv : Inv 4 roots fixed s) (rooted : root ∈ roots) (rootSmall : root < 2 ^ 40)
    (below : Nat → Frames → Option Frames) {body : Nat → Frames → Option Frames} {n : Nat}
    (user : ∀ i < n, UserPath 4 (path ++ [i])) (frees : ∀ i < n, Frees s root (path ++ [i]) below)
    (deep : 3 ≤ path.length → below = fun _ s => some s)
    (same : ∀ pte t u, body pte t = some u → releaseEntry below pte t = some u) :
    Frees s root path (fun table => eachEntry table body n 0) := by
  intro table done t u found fresh freed ran
  have walked := eachEntry_frees inv rooted user found (reach_small rootSmall found)
    (fun i bound inner => inv.tables root rooted path i table (user i bound) inner found)
    frees deep same n 0 done t u (zero_add n) (fun q member onward => absurd onward (fresh q member))
    freed ran
  refine walked.mono ?_
  rintro q (old | ⟨j, _, onward⟩)
  · exact .inl old
  · refine .inr ⟨(prefix_append path [j]).trans onward, ?_⟩
    rintro rfl
    have short := onward.length_le
    rw [length_append, length_singleton] at short
    omega

theorem UserPath.snoc (user : UserPath 4 path) (below : path ≠ []) (short : path.length < 4) (i : Nat) :
    UserPath 4 (path ++ [i]) := by
  refine ⟨?_, ?_⟩
  · rw [length_append, length_singleton]
    omega
  intro j first
  rw [head?_append_of_ne_nil _ below] at first
  exact user.user j first

theorem frees_root (inv : Inv 4 roots fixed s) (rooted : root ∈ roots) (rootSmall : root < 2 ^ 40) :
    Frees s root [] (fun table =>
      eachEntry table (releaseEntry releaseTable2) (PAGETABLE_ENTRIES / 2) 0) := by
  have top : ∀ i < PAGETABLE_ENTRIES / 2, UserPath 4 [i] := by
    intro i bound
    refine ⟨by simp, ?_⟩
    rintro j ⟨⟩
    exact bound
  refine frees_table inv rooted rootSmall releaseTable2 top ?_ (by simp) (fun _ _ _ ran => ran)
  intro i bound
  refine frees_table inv rooted rootSmall releaseTable3
    (fun j _ => (top i bound).snoc (by simp) (by simp) j) ?_ (by simp) (fun _ _ _ ran => ran)
  intro j _
  have second := (top i bound).snoc (by simp) (by simp) j
  refine frees_table inv rooted rootSmall releaseTable4
    (fun k _ => second.snoc (by simp) (by simp) k) ?_ (by simp) ?_
  · intro k _
    have third := second.snoc (by simp) (by simp) k
    refine frees_table inv rooted rootSmall (fun _ s => some s)
      (fun l _ => third.snoc (by simp) (by simp) l) ?_ (fun _ => rfl) (fun _ _ _ ran => ran)
    rintro l _ table done t u _ _ freed ⟨⟩
    exact freed.mono (fun q member => .inl member)
  · intro pte t u ran
    split at ran
    · exact ran
    · cases ran

end

theorem Inv.destroyAS {roots fixed : List Nat} {s t : Frames} {space root : Nat}
    (inv : Inv 4 roots fixed s) (rooted : root ∈ roots) (rootSmall : root < 2 ^ 40)
    (ran : pMap_DestroyAS space root s = some t) {pg : Nat} (small : pg < 2 ^ 40) (other : pg ≠ space)
    (outside : ∀ path, UserPath 4 path → path ≠ [] → reach child s.memory root path ≠ some pg) :
    t.memory pg = s.memory pg ∧ t.refCount pg = s.refCount pg ∧ (pg ∈ t.freeList → pg ∈ s.freeList) := by
  obtain ⟨u, walk, release⟩ := bind_eq_some_iff.mp ran
  have freed := frees_root inv rooted rootSmall root _ s u rfl (by simp) (Freed.none s root) walk
  have off : Off s root (fun q => False ∨ ([] <+: q ∧ q ≠ [])) pg :=
    ⟨small, fun path user done => outside path user (done.resolve_left id).2⟩
  obtain ⟨memory, count, free⟩ := pAlloc_Release_frame release other
  exact ⟨memory.trans (freed.memory pg off), count.trans (freed.refCount pg off),
    fun member => freed.free pg off (free member)⟩

structure Restored (s t : Frames) : Prop where
  free : ∀ pg, pg ∈ t.freeList ↔ pg ∈ s.freeList
  freePages : t.freePages = s.freePages
  refCount : t.refCount = s.refCount

theorem pMap_NewAS_root {systemRoot as root : Nat} {s t : Frames}
    (ran : pMap_NewAS systemRoot s = some ((as, root), t)) : root ∈ s.freeList := by
  unfold pMap_NewAS at ran
  obtain ⟨⟨page, v⟩, first, ran⟩ := bind_eq_some_iff.mp ran
  obtain ⟨⟨page', w⟩, second, ran⟩ := bind_eq_some_iff.mp ran
  cases ran
  rw [(pAlloc_AllocPage_allocates first).head, (pAlloc_AllocPage_allocates second).head]
  simp

theorem apply_spaces {k k' : Kernel} {call : Call} (ran : apply k call = some k')
    {space : Nat × Nat} (member : space ∈ k.spaces) : space ∈ k'.spaces := by
  cases call with
  | newAS =>
    obtain ⟨_, _, rfl⟩ := map_eq_some_iff.mp ran
    exact mem_cons_of_mem _ member
  | map root phys virt pages flags =>
    simp only [apply] at ran
    split at ran
    · obtain ⟨_, _, rfl⟩ := map_eq_some_iff.mp ran
      exact member
    · cases ran
  | allocMap root virt len flags =>
    simp only [apply] at ran
    split at ran
    · obtain ⟨_, _, rfl⟩ := map_eq_some_iff.mp ran
      exact member
    · cases ran

/-- In no run does `PMap_DestroyAS` undo `PMap_NewAS` and the calls of `PMap_AllocMap` after it:
it never releases the root table. Of the pages that are not below the root it touches the page of
the `AS` only. -/
theorem destroyAS_keeps_root {start k created k' : Kernel} (started : Started start)
    {before calls : List Call} {space root : Nat} {t : Frames}
    (earlier : Run (fun k call k' => Owning call ∧ Step k call k') start before k)
    (new : apply k .newAS = some created) (made : created.spaces = (space, root) :: k.spaces)
    (mapped : Run (fun k call k' => Owning call ∧ Step k call k') created calls k')
    (torn : pMap_DestroyAS space root k'.frames = some t) :
    (k.frames.refCount root = 0 ∧ t.refCount root = 1 ∧ root ∈ k.frames.freeList ∧
      root ∉ t.freeList) ∧
    (∀ pg < 2 ^ 40, pg ≠ space → (∀ path, UserPath 4 path → path ≠ [] →
      reach child k'.frames.memory root path ≠ some pg) → t.refCount pg = k'.frames.refCount pg) ∧
    ¬ Restored k.frames t := by
  have ownedBefore : Owned k :=
    Run.invariant Owned (fun _ _ _ owned moved => owned.step moved) earlier started.owned
  have owned : Owned k' := Run.invariant Owned (fun _ _ _ owned moved => owned.step moved) mapped
    (ownedBefore.newAS new)
  obtain ⟨⟨⟨as, page⟩, frames⟩, ran, rfl⟩ := map_eq_some_iff.mp new
  obtain ⟨rfl, rfl⟩ : as = space ∧ page = root := by simpa using made
  have free := pMap_NewAS_root ran
  obtain ⟨small, _, unused⟩ := ownedBefore.inv.ready page free
  have member : (as, page) ∈ k'.spaces :=
    Run.invariant (fun k => (as, page) ∈ k.spaces)
      (fun _ _ _ member moved => apply_spaces moved.2.2 member) mapped mem_cons_self
  have rooted : page ∈ k'.roots := mem_map.mpr ⟨_, member, rfl⟩
  have fixed : as ∈ k'.fixed := mem_append_left _ (mem_map.mpr ⟨_, member, rfl⟩)
  have touched : ∀ pg < 2 ^ 40, pg ≠ as → (∀ path, UserPath 4 path → path ≠ [] →
      reach child k'.frames.memory page path ≠ some pg) → _ :=
    fun pg below other outside => owned.inv.destroyAS rooted small torn below other outside
  have here : Inside 4 k'.roots k'.fixed page [] := .inl ⟨rooted, UserPath.nil 4⟩
  obtain ⟨_, count, freed⟩ := touched page small
    (fun same => owned.inv.apart page rooted (same ▸ fixed))
    (fun path user long reached => long
      (owned.inv.forest.unique _ _ _ _ _ (.inl ⟨rooted, user⟩) here reached rfl).2)
  have held : t.refCount page = 1 := count.trans (owned.inv.counts page [] page here rfl)
  have busy : page ∉ t.freeList := fun member => owned.inv.table_live here rfl (freed member)
  refine ⟨⟨unused, held, free, busy⟩, ?_, ?_⟩
  · exact fun pg below other outside => (touched pg below other outside).2.1
  · exact fun restored => busy ((restored.free page).mpr free)

def twoPages : Option (Kernel × Kernel × Frames) := do
  let created ← apply twentyPages .newAS
  let k ← apply created (.allocMap 2 0x400000 0x2000 PTE_W)
  let t ← pMap_DestroyAS 1 2 k.frames
  return (created, k, t)

theorem twoPages_ran : ∃ created k t, apply twentyPages .newAS = some created ∧
    apply created (.allocMap 2 0x400000 0x2000 PTE_W) = some k ∧
    pMap_DestroyAS 1 2 k.frames = some t ∧ created.spaces = [(1, 2)] ∧ t.freePages = 19 := by
  have ends : twoPages.any (fun (created, _, t) =>
      decide (created.spaces = [(1, 2)] ∧ t.freePages = 19)) = true := by decide +kernel
  obtain ⟨⟨created, k, t⟩, ran, result⟩ := (Option.any_eq_true ..).mp ends
  simp only [twoPages, bind_eq_bind, bind_eq_some_iff] at ran
  obtain ⟨created', new, k', mapped, t', torn, same⟩ := ran
  cases same
  exact ⟨created, k, t, new, mapped, torn, of_decide_eq_true result⟩

theorem destroyAS_keeps_root_two_pages : ∃ created k t, apply twentyPages .newAS = some created ∧
    apply created (.allocMap 2 0x400000 0x2000 PTE_W) = some k ∧
    pMap_DestroyAS 1 2 k.frames = some t ∧ t.refCount 2 = 1 := by
  obtain ⟨created, k, t, new, mapped, torn, made, _⟩ := twoPages_ran
  have owning : Owning (.allocMap 2 0x400000 0x2000 PTE_W) := ⟨2, by decide, .inl rfl⟩
  have step : Step created (.allocMap 2 0x400000 0x2000 PTE_W) k :=
    ⟨⟨by decide, by decide, by decide⟩, mapped⟩
  have result := destroyAS_keeps_root twentyPages_started (Run.nil _) new made
    (Run.single ⟨owning, step⟩) torn
  exact ⟨created, k, t, new, mapped, torn, result.1.2.1⟩

theorem destroyAS_loses_page : ∃ created k t, apply twentyPages .newAS = some created ∧
    apply created (.allocMap 2 0x400000 0x2000 PTE_W) = some k ∧
    pMap_DestroyAS 1 2 k.frames = some t ∧ ¬ Restored twentyPages.frames t := by
  obtain ⟨created, k, t, new, mapped, torn, _, fewer⟩ := twoPages_ran
  refine ⟨created, k, t, new, mapped, torn, fun restored => ?_⟩
  have same := restored.freePages
  rw [fewer] at same
  cases same

end BoringOs.PMap
