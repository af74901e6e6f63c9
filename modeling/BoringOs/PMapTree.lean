import BoringOs.PMap

/-! The page tables of the address spaces as radix trees that share no table. Walking down to an
entry does not change the map `entryAt` from pages to entries, and storing an entry changes it at
one page. -/

namespace BoringOs.PMap

open PAlloc RadixTree Function Option

def pageOf (pte : Nat) : Nat := pte % 2 ^ 52 / PGSIZE

def child (pte : Nat) : Option Nat := if pte = 0 then none else some (pageOf pte)

def pathOf (va : Nat) : List Nat :=
  [index va ROOT_PGSHIFT, index va HUGE_PGSHIFT, index va LARGE_PGSHIFT]

/-- The entry of an address, zero if its tables are missing. -/
def entryAt (s : Frames) (root va : Nat) : Nat :=
  lookup child 0 s.memory root (pathOf va) (index va PGSHIFT)

/-- A path into the user half of an address space. -/
structure UserPath (depth : Nat) (path : List Nat) : Prop where
  short : path.length ≤ depth
  user : ∀ i, path.head? = some i → i < PAGETABLE_ENTRIES / 2

def Inside (depth : Nat) (roots fixed : List Nat) (root : Nat) (path : List Nat) : Prop :=
  (root ∈ roots ∧ UserPath depth path) ∨ (root ∈ fixed ∧ path = [])

structure Inv (depth : Nat) (roots fixed : List Nat) (s : Frames) : Prop where
  forest : Forest child s.memory (Inside depth roots fixed) (· ∈ s.freeList)
  apart : ∀ root ∈ roots, root ∉ fixed
  nodup : s.freeList.Nodup
  ready : ∀ pg ∈ s.freeList, pg < 2 ^ 40 ∧ s.magic pg = FREEPAGE_MAGIC_FREE ∧ s.refCount pg = 0
  tables : ∀ root ∈ roots, ∀ path i table, UserPath depth (path ++ [i]) → path.length < 3 →
    reach child s.memory root path = some table →
    s.memory table i = 0 ∨ ∃ page < 2 ^ 40, s.memory table i = tableEntry page
  counts : ∀ root path page, Inside depth roots fixed root path →
    reach child s.memory root path = some page → s.refCount page = 1

/-- The kernel halves of the address spaces and the other pages in use are as before. -/
structure Kept (roots fixed : List Nat) (s t : Frames) : Prop where
  upper : ∀ root ∈ roots, ∀ i, PAGETABLE_ENTRIES / 2 ≤ i → t.memory root i = s.memory root i
  fixed : ∀ pg ∈ fixed, t.memory pg = s.memory pg

theorem pageOf_tableEntry {page : Nat} (small : page < 2 ^ 40) : pageOf (tableEntry page) = page := by
  rw [tableEntry_eq]
  unfold pageOf PGSIZE
  omega

theorem tableOf_tableEntry {page : Nat} (small : page < 2 ^ 40) : tableOf (tableEntry page) = page := by
  rw [tableOf_eq, tableEntry_eq]
  · unfold PGSIZE
    omega
  · rw [tableEntry_eq]
    unfold word64 PGSIZE
    omega

theorem tableEntry_ne_zero (page : Nat) : tableEntry page ≠ 0 := by
  rw [tableEntry_eq]
  omega

theorem child_tableEntry {page : Nat} (small : page < 2 ^ 40) :
    child (tableEntry page) = some page := by
  rw [child, if_neg (tableEntry_ne_zero page), pageOf_tableEntry small]

theorem and_present (pte : Nat) : pte &&& PTE_P = PTE_P ↔ pte % 2 = 1 := by
  unfold PTE_P
  rw [Nat.and_one_is_mod]

theorem store_memory (table i pte : Nat) (s : Frames) (page j : Nat) :
    (store table i pte s).memory page j = if page = table ∧ j = i then pte else s.memory page j := by
  unfold store
  by_cases here : page = table
  · subst here
    by_cases last : j = i <;> simp [last]
  · simp [here]

theorem pathOf_user {depth va : Nat} (deep : 3 ≤ depth) (user : va < MEM_USERSPACE_TOP) :
    UserPath depth (pathOf va) := by
  refine ⟨deep, ?_⟩
  intro i first
  cases first
  rw [index_eq]
  unfold MEM_USERSPACE_TOP at user
  unfold ROOT_PGSHIFT PAGETABLE_ENTRIES
  omega

theorem pathOf_congr {va other : Nat} (same : va / PGSIZE = other / PGSIZE) :
    pathOf va = pathOf other ∧ index va PGSHIFT = index other PGSHIFT := by
  unfold PGSIZE at same
  simp only [pathOf, index_eq, ROOT_PGSHIFT, HUGE_PGSHIFT, LARGE_PGSHIFT, PGSHIFT, List.cons.injEq,
    and_true]
  omega

theorem pathOf_injective {va other : Nat} (user : va < MEM_USERSPACE_TOP)
    (user' : other < MEM_USERSPACE_TOP) (path : pathOf va = pathOf other)
    (last : index va PGSHIFT = index other PGSHIFT) : va / PGSIZE = other / PGSIZE := by
  unfold MEM_USERSPACE_TOP at user user'
  simp only [pathOf, index_eq, ROOT_PGSHIFT, HUGE_PGSHIFT, LARGE_PGSHIFT, PGSHIFT, List.cons.injEq,
    and_true] at path last
  unfold PGSIZE
  omega

theorem entryAt_congr {s : Frames} {root va other : Nat} (same : va / PGSIZE = other / PGSIZE) :
    entryAt s root va = entryAt s root other := by
  obtain ⟨path, last⟩ := pathOf_congr same
  rw [entryAt, entryAt, path, last]

section

variable {depth : Nat} {roots fixed : List Nat} {s t u : Frames} {root table i pg pte : Nat}
  {path : List Nat}

theorem Kept.refl (roots fixed : List Nat) (s : Frames) : Kept roots fixed s s :=
  ⟨fun _ _ _ _ => rfl, fun _ _ => rfl⟩

theorem Kept.trans (first : Kept roots fixed s t) (second : Kept roots fixed t u) :
    Kept roots fixed s u :=
  ⟨fun root member i high => (second.upper root member i high).trans (first.upper root member i high),
    fun pg member => (second.fixed pg member).trans (first.fixed pg member)⟩

theorem UserPath.nil (depth : Nat) : UserPath depth [] := ⟨Nat.zero_le _, nofun⟩

theorem UserPath.front (user : UserPath depth (path ++ [i])) : UserPath depth path := by
  refine ⟨?_, ?_⟩
  · have := user.short
    rw [List.length_append] at this
    omega
  · intro j first
    refine user.user j ?_
    cases path with
    | nil => cases first
    | cons a rest => exact first

theorem pathOf_fronts {va : Nat} (deep : 3 ≤ depth) (user : va < MEM_USERSPACE_TOP) :
    UserPath depth ([] ++ [index va ROOT_PGSHIFT]) ∧
      UserPath depth ([index va ROOT_PGSHIFT] ++ [index va HUGE_PGSHIFT]) ∧
      UserPath depth (pathOf va) := by
  have whole := pathOf_user deep user
  have second : UserPath depth ([index va ROOT_PGSHIFT] ++ [index va HUGE_PGSHIFT]) :=
    UserPath.front (i := index va LARGE_PGSHIFT) whole
  exact ⟨UserPath.front second, second, whole⟩

section

variable (inv : Inv depth roots fixed s)
include inv

theorem Inv.table_live (member : Inside depth roots fixed root path)
    (found : reach child s.memory root path = some table) : table ∉ s.freeList :=
  inv.forest.live root path table member found

theorem Inv.kept_store (i : Nat) (rooted : root ∈ roots)
    (user : UserPath depth path) (found : reach child s.memory root path = some table)
    (low : path = [] → i < PAGETABLE_ENTRIES / 2)
    (same : ∀ page j, page ∉ s.freeList → (page ≠ table ∨ j ≠ i) → t.memory page j = s.memory page j) :
    Kept roots fixed s t := by
  have member : Inside depth roots fixed root path := .inl ⟨rooted, user⟩
  constructor
  · intro other member' j high
    have top : Inside depth roots fixed other [] := .inl ⟨member', UserPath.nil depth⟩
    refine same other j (inv.table_live top rfl) ?_
    by_contra both
    rw [not_or, not_not, not_not] at both
    obtain ⟨rfl, rfl⟩ := both
    obtain ⟨_, nil⟩ := inv.forest.unique _ _ _ _ _ top member rfl found
    exact absurd (low nil.symm) (not_lt.mpr high)
  · intro page member'
    have top : Inside depth roots fixed page [] := .inr ⟨member', rfl⟩
    funext j
    refine same page j (inv.table_live top rfl) ?_
    by_contra both
    rw [not_or, not_not, not_not] at both
    obtain ⟨rfl, rfl⟩ := both
    obtain ⟨rfl, _⟩ := inv.forest.unique _ _ _ _ _ top member rfl found
    exact inv.apart _ rooted member'

theorem Inv.table_ne (member : Inside depth roots fixed root path)
    (found : reach child s.memory root path = some table) {root' : Nat} {path' : List Nat}
    (member' : Inside depth roots fixed root' path') {table' : Nat}
    (found' : reach child s.memory root' path' = some table') (other : path'.length ≠ path.length) :
    table' ≠ table := by
  rintro rfl
  obtain ⟨_, rfl⟩ := inv.forest.unique _ _ _ _ _ member' member found' found
  exact other rfl

end

theorem store_blank (got : Allocated s pg u) (other : pg ≠ table) (i pte j : Nat) :
    (store table i pte u).memory pg j = 0 := by
  rw [store_memory, if_neg (fun both => other both.1), got.memory, update_self]

theorem hung_of_allocated {name : Nat → Option Nat} (zero : name 0 = none)
    (got : Allocated s pg u) (other : pg ≠ table) (empty : s.memory table i = 0)
    (named : name pte = some pg) : Hung name s.memory (store table i pte u).memory table i pg := by
  refine ⟨by rw [empty, zero], ?_, ?_, ?_⟩
  · intro j
    rw [store_blank got other, zero]
  · rw [store_memory, if_pos ⟨rfl, rfl⟩]
    exact named
  · intro page j old elsewhere
    rw [store_memory, if_neg (fun both => elsewhere.elim (· both.1) (· both.2)), got.memory,
      update_of_ne old]

theorem allocated_hung (inv : Inv depth roots fixed s) (member : Inside depth roots fixed root path)
    (found : reach child s.memory root path = some table) (empty : s.memory table i = 0)
    (got : Allocated s pg u) (named : child pte = some pg) :
    Hung child s.memory (store table i pte u).memory table i pg := by
  refine hung_of_allocated rfl got ?_ empty named
  rintro rfl
  exact inv.table_live member found got.spare

theorem Inv.hang (inv : Inv depth roots fixed s) (rooted : root ∈ roots)
    (user : UserPath depth (path ++ [i])) (found : reach child s.memory root path = some table)
    (empty : s.memory table i = 0) (got : Allocated s pg u) (named : child pte = some pg)
    (entry : path.length < 3 → pte = tableEntry pg) :
    Inv depth roots fixed (store table i pte u) ∧
      reach child (store table i pte u).memory root (path ++ [i]) = some pg ∧
      Kept roots fixed s (store table i pte u) := by
  have above : Inside depth roots fixed root path := .inl ⟨rooted, user.front⟩
  have member : Inside depth roots fixed root (path ++ [i]) := .inl ⟨rooted, user⟩
  have hung := allocated_hung inv above found empty got named
  have spare := got.spare
  obtain ⟨distinct, old⟩ := got.rest inv.nodup
  have reaches := inv.forest.reach_hang member found spare hung
  have counts : ∀ page, page ∉ s.freeList →
      (store table i pte u).refCount page = s.refCount page := by
    intro page live
    have different : page ≠ pg := by
      rintro rfl
      exact live spare
    show u.refCount page = _
    rw [got.refCount, update_of_ne different]
  refine ⟨⟨?_, inv.apart, distinct, ?_, ?_, ?_⟩, ?_, ?_⟩
  · have forest := inv.forest.hang member found spare hung
    refine ⟨forest.closed, forest.unique, ?_⟩
    intro r p page inner reached free
    exact forest.live r p page inner reached (old page free)
  · intro page free
    obtain ⟨before, different⟩ := old page free
    have away : page ≠ table := by
      rintro rfl
      exact inv.table_live above found before
    obtain ⟨small, magic, unused⟩ := inv.ready page before
    refine ⟨small, ?_, ?_⟩
    · have same := hung.same page 0 different (.inl away)
      exact same.trans magic
    · show u.refCount page = 0
      rw [got.refCount, update_of_ne different]
      exact unused
  · intro r rooted' p j node below short reached
    have inner : Inside depth roots fixed r p := .inl ⟨rooted', below.front⟩
    rcases reaches r p inner with ⟨_, _, new⟩ | ⟨_, same⟩
    · rw [new] at reached
      cases reached
      have away : pg ≠ table := by
        rintro rfl
        exact inv.table_live above found spare
      left
      rw [store_memory, if_neg (fun both => away both.1), got.memory, update_self]
    · rw [same] at reached
      have live := inv.table_live inner reached
      by_cases here : node = table ∧ j = i
      · obtain ⟨rfl, rfl⟩ := here
        obtain ⟨_, rfl⟩ := inv.forest.unique _ _ _ _ _ inner above reached found
        right
        exact ⟨pg, (inv.ready pg spare).1, by rw [store_memory, if_pos ⟨rfl, rfl⟩, entry short]⟩
      · rw [hung.same node j (fun equal => live (equal ▸ spare)) (not_and_or.mp here)]
        exact inv.tables r rooted' p j node below short reached
  · intro r p page inner reached
    rcases reaches r p inner with ⟨_, _, new⟩ | ⟨_, same⟩
    · rw [new] at reached
      cases reached
      show u.refCount pg = 1
      rw [got.refCount, update_self]
    · rw [same] at reached
      rw [counts page (inv.table_live inner reached)]
      exact inv.counts r p page inner reached
  · rcases reaches root (path ++ [i]) member with ⟨_, _, new⟩ | ⟨other, _⟩
    · exact new
    · exact absurd ⟨rfl, rfl⟩ other
  · refine inv.kept_store i rooted user.front found ?_ ?_
    · rintro rfl
      exact user.user i rfl
    · intro page j live elsewhere
      exact hung.same page j (fun equal => live (equal ▸ spare)) elsewhere

structure Walked (depth : Nat) (roots fixed : List Nat) (n : Nat) (s t : Frames) : Prop where
  inv : Inv depth roots fixed t
  kept : Kept roots fixed s t
  entries : ∀ root ∈ roots, ∀ va < MEM_USERSPACE_TOP, entryAt t root va = entryAt s root va
  spent : s.freeList.length ≤ t.freeList.length + n

theorem Walked.trans {m n : Nat} (first : Walked depth roots fixed m s t)
    (second : Walked depth roots fixed n t u) : Walked depth roots fixed (m + n) s u := by
  refine ⟨second.inv, first.kept.trans second.kept, ?_, ?_⟩
  · intro root member va user
    exact (second.entries root member va user).trans (first.entries root member va user)
  · have := first.spent
    have := second.spent
    omega

theorem pMapAllocPageTable_allocates (ran : pMapAllocPageTable s = some (pg, u)) :
    Allocated s pg u := by
  unfold pMapAllocPageTable at ran
  obtain ⟨⟨page, v⟩, allocated, result⟩ := bind_eq_some_iff.mp ran
  have got := pAlloc_AllocPage_allocates allocated
  cases result
  refine ⟨got.head, got.unused, got.refCount, ?_, got.counts⟩
  show update v.memory _ _ = _
  rw [got.memory, update_idem]

theorem Inv.descend (inv : Inv depth roots fixed s) (deep : 3 ≤ depth) (rooted : root ∈ roots)
    (user : UserPath depth (path ++ [i])) (short : path.length < 3)
    (found : reach child s.memory root path = some table) {next : Nat}
    (ran : pMapDescend table i s = some (next, t)) :
    Walked depth roots fixed 1 s t ∧ reach child t.memory root (path ++ [i]) = some next := by
  have above : Inside depth roots fixed root path := .inl ⟨rooted, user.front⟩
  unfold pMapDescend at ran
  dsimp only at ran
  split at ran
  · rename_i empty
    obtain ⟨⟨pg, u⟩, allocated, result⟩ := bind_eq_some_iff.mp ran
    have got := pMapAllocPageTable_allocates allocated
    have spare := got.spare
    have small := (inv.ready pg spare).1
    have named := child_tableEntry small
    cases result
    obtain ⟨kept, reached, same⟩ := inv.hang rooted user found empty got named (fun _ => rfl)
    have other : pg ≠ table := by
      rintro rfl
      exact inv.table_live above found spare
    have blank := store_blank got other i (tableEntry pg)
    refine ⟨⟨kept, same, ?_, ?_⟩, ?_⟩
    · intro root' member va below
      refine inv.forest.lookup_hang (.inl ⟨rooted, user⟩) found spare
        (allocated_hung inv above found empty got named) blank
        (.inl ⟨member, pathOf_user deep below⟩) ?_ _
      rintro rfl
      exact absurd short (lt_irrefl 3)
    · exact got.length.le
    · change reach child _ root (path ++ [i]) = some (tableOf (tableEntry pg))
      rw [tableOf_tableEntry small]
      exact reached
  · rename_i full
    cases ran
    refine ⟨⟨inv, Kept.refl _ _ _, fun _ _ _ _ => rfl, Nat.le_succ _⟩, ?_⟩
    rcases inv.tables root rooted path i table user short found with zero | ⟨page, small, entry⟩
    · exact absurd zero full
    · rw [reach_snoc, found]
      show child (s.memory table i) = some (tableOf (s.memory table i))
      rw [entry, child_tableEntry small, tableOf_tableEntry small]

section

variable (ready : ∀ pg ∈ s.freeList, s.magic pg = FREEPAGE_MAGIC_FREE ∧ s.refCount pg = 0)
include ready

theorem pMapAllocPageTable_ends
    (free : s.freeList ≠ []) : ∃ pg t, pMapAllocPageTable s = some (pg, t) := by
  obtain ⟨pg, t, allocated⟩ := pAlloc_AllocPage_ends ready free
  rw [pMapAllocPageTable, allocated]
  exact ⟨_, _, rfl⟩

theorem pMapDescend_ends
    (free : s.freeList ≠ []) (table i : Nat) : ∃ next t, pMapDescend table i s = some (next, t) := by
  obtain ⟨pg, u, allocated⟩ := pMapAllocPageTable_ends ready free
  unfold pMapDescend
  dsimp only
  split
  · rw [allocated]
    exact ⟨_, _, rfl⟩
  · exact ⟨_, _, rfl⟩

end

section

variable (inv : Inv depth roots fixed s)
include inv

theorem Inv.descends (free : s.freeList ≠ []) (table i : Nat) :
    ∃ next t, pMapDescend table i s = some (next, t) := by
  exact pMapDescend_ends (fun pg member => (inv.ready pg member).2) free table i

theorem Inv.lookupEntry (deep : 3 ≤ depth) (rooted : root ∈ roots)
    {va : Nat} (user : va < MEM_USERSPACE_TOP) {l : Nat}
    (ran : pMapLookupEntry root va PGSIZE s = some ((table, l), t)) :
    Walked depth roots fixed 3 s t ∧ reach child t.memory root (pathOf va) = some table ∧
      l = index va PGSHIFT := by
  obtain ⟨first, second, whole⟩ := pathOf_fronts deep user
  unfold pMapLookupEntry at ran
  obtain ⟨⟨table₁, s₁⟩, ran₁, ran⟩ := bind_eq_some_iff.mp ran
  obtain ⟨walk₁, reach₁⟩ := inv.descend deep rooted first (by simp) rfl ran₁
  obtain ⟨⟨table₂, s₂⟩, ran₂, ran⟩ := bind_eq_some_iff.mp ran
  obtain ⟨walk₂, reach₂⟩ := walk₁.inv.descend deep rooted second (by simp) reach₁ ran₂
  obtain ⟨⟨table₃, s₃⟩, ran₃, ran⟩ := bind_eq_some_iff.mp ran
  obtain ⟨walk₃, reach₃⟩ := walk₂.inv.descend deep rooted whole (by simp) reach₂ ran₃
  cases ran
  exact ⟨(walk₁.trans walk₂).trans walk₃, reach₃, rfl⟩

theorem Inv.looksUp (deep : 3 ≤ depth) (rooted : root ∈ roots)
    {va : Nat} (user : va < MEM_USERSPACE_TOP) (free : 3 ≤ s.freeList.length) :
    ∃ place t, pMapLookupEntry root va PGSIZE s = some (place, t) := by
  obtain ⟨first, second, whole⟩ := pathOf_fronts deep user
  have some_free : ∀ {v : Frames}, 0 < v.freeList.length → v.freeList ≠ [] :=
    fun positive => List.length_pos_iff.mp positive
  obtain ⟨table₁, s₁, ran₁⟩ := inv.descends (some_free (by omega)) root (index va ROOT_PGSHIFT)
  obtain ⟨walk₁, reach₁⟩ := inv.descend deep rooted first (by simp) rfl ran₁
  have spent₁ := walk₁.spent
  obtain ⟨table₂, s₂, ran₂⟩ :=
    walk₁.inv.descends (some_free (by omega)) table₁ (index va HUGE_PGSHIFT)
  obtain ⟨walk₂, reach₂⟩ := walk₁.inv.descend deep rooted second (by simp) reach₁ ran₂
  have spent₂ := walk₂.spent
  obtain ⟨table₃, s₃, ran₃⟩ :=
    walk₂.inv.descends (some_free (by omega)) table₂ (index va LARGE_PGSHIFT)
  refine ⟨(table₃, index va PGSHIFT), s₃, ?_⟩
  unfold pMapLookupEntry
  rw [ran₁]
  show (pMapDescend table₁ _ s₁).bind _ = _
  rw [ran₂]
  show (pMapDescend table₂ _ s₂).bind _ = _
  rw [ran₃]
  rfl

end

structure Loose (depth : Nat) (roots fixed : List Nat) (s : Frames) (pg : Nat) : Prop where
  off : ∀ root path, Inside depth roots fixed root path → reach child s.memory root path ≠ some pg
  used : pg ∉ s.freeList
  count : s.refCount pg = 1

structure SameTrees (depth : Nat) (roots fixed : List Nat) (s t : Frames) : Prop where
  reaches : ∀ root path, Inside depth roots fixed root path →
    reach child t.memory root path = reach child s.memory root path
  words : ∀ root path page, Inside depth roots fixed root path →
    reach child s.memory root path = some page → t.memory page = s.memory page

theorem SameTrees.entryAt (same : SameTrees depth roots fixed s t) (deep : 3 ≤ depth)
    (rooted : root ∈ roots) {va : Nat} (user : va < MEM_USERSPACE_TOP) :
    entryAt t root va = entryAt s root va := by
  have member : Inside depth roots fixed root (pathOf va) := .inl ⟨rooted, pathOf_user deep user⟩
  unfold PMap.entryAt lookup
  rw [same.reaches root _ member]
  cases reached : reach child s.memory root (pathOf va) with
  | none => rfl
  | some page =>
    show t.memory page _ = s.memory page _
    rw [same.words root _ page member reached]

theorem inside_forest {words : Nat → Nat → Nat} {inside : Nat → List Nat → Prop} {free : Nat → Prop}
    (forest : Forest child words inside free)
    (split : ∀ root path, Inside depth roots fixed root path → inside root path) :
    Forest child words (Inside depth roots fixed) free := by
  refine ⟨?_, fun r p r' p' node first second => ?_, fun r p node member => ?_⟩
  · rintro root path i (⟨rooted, user⟩ | ⟨_, nil⟩)
    · exact .inl ⟨rooted, user.front⟩
    · simp at nil
  · exact forest.unique r p r' p' node (split r p first) (split r' p' second)
  · exact forest.live r p node (split r p member)

section

variable (inv : Inv depth roots fixed s)
include inv

theorem Inv.take (got : Allocated s pg t) :
    Inv depth roots fixed t ∧ Loose depth roots fixed t pg ∧ Kept roots fixed s t ∧
      SameTrees depth roots fixed s t := by
  have spare := got.spare
  have off : ∀ root path, Inside depth roots fixed root path →
      reach child s.memory root path ≠ some pg :=
    fun root path member reached => inv.table_live member reached spare
  have same : ∀ page, page ≠ pg → t.memory page = s.memory page := by
    intro page other
    rw [got.memory, update_of_ne other]
  have counts : ∀ page, page ≠ pg → t.refCount page = s.refCount page := by
    intro page other
    rw [got.refCount, update_of_ne other]
  have kept := inv.forest.reach_off off same
  obtain ⟨distinct, old⟩ := got.rest inv.nodup
  have live : ∀ root path page, Inside depth roots fixed root path →
      reach child s.memory root path = some page → page ≠ pg := by
    rintro root path page member reached rfl
    exact off root path member reached
  refine ⟨⟨?_, inv.apart, distinct, ?_, ?_, ?_⟩, ⟨?_, fun free => (old pg free).2 rfl, ?_⟩, ⟨?_, ?_⟩,
    ⟨kept, fun root path page member reached => same page (live root path page member reached)⟩⟩
  · exact inv.forest.take off same (fun page free => (old page free).1)
  · intro page free
    obtain ⟨before, other⟩ := old page free
    obtain ⟨small, magic, unused⟩ := inv.ready page before
    refine ⟨small, ?_, ?_⟩
    · unfold Frames.magic
      rw [same page other]
      exact magic
    · rw [counts page other]
      exact unused
  · intro root rooted path i table user short reached
    have member : Inside depth roots fixed root path := .inl ⟨rooted, user.front⟩
    rw [kept root path member] at reached
    rw [same table (live root path table member reached)]
    exact inv.tables root rooted path i table user short reached
  · intro root path page member reached
    rw [kept root path member] at reached
    rw [counts page (live root path page member reached)]
    exact inv.counts root path page member reached
  · intro root path member
    rw [kept root path member]
    exact off root path member
  · rw [got.refCount, update_self]
  · intro root rooted i _
    rw [same root (live root [] root (.inl ⟨rooted, UserPath.nil depth⟩) rfl)]
  · intro page member
    exact same page (live page [] page (.inr ⟨member, rfl⟩) rfl)

theorem Inv.addFixed (loose : Loose depth roots fixed s pg) : Inv depth roots (pg :: fixed) s := by
  have forest := inv.forest.plant loose.off loose.used (fun _ _ => rfl) (· = []) (by simp) (by simp)
  have split : ∀ root path, Inside depth roots (pg :: fixed) root path →
      Inside depth roots fixed root path ∨ (root = pg ∧ path = []) := by
    rintro root path (user | ⟨member, nil⟩)
    · exact .inl (.inl user)
    · rcases List.mem_cons.mp member with rfl | old
      · exact .inr ⟨rfl, nil⟩
      · exact .inl (.inr ⟨old, nil⟩)
  refine ⟨inside_forest forest split, ?_, inv.nodup, inv.ready, inv.tables, ?_⟩
  · intro root rooted member
    rcases List.mem_cons.mp member with rfl | old
    · exact loose.off root [] (.inl ⟨rooted, UserPath.nil depth⟩) rfl
    · exact inv.apart root rooted old
  · intro root path page member reached
    rcases split root path member with old | ⟨rfl, rfl⟩
    · exact inv.counts root path page old reached
    · cases reached
      exact loose.count

theorem Inv.addRoot (loose : Loose depth roots fixed s pg)
    (words : Nat → Nat) (blank : ∀ i < PAGETABLE_ENTRIES / 2, words i = 0) :
    Inv depth (pg :: roots) fixed { s with memory := update s.memory pg words } ∧
      Kept roots fixed s { s with memory := update s.memory pg words } ∧
      SameTrees depth roots fixed s { s with memory := update s.memory pg words } := by
  have same : ∀ page, page ≠ pg → update s.memory pg words page = s.memory page :=
    fun page other => update_of_ne other _ _
  have empty : ∀ i, UserPath depth [i] → child (update s.memory pg words pg i) = none := by
    intro i user
    rw [update_self, blank i (user.user i rfl)]
    rfl
  have closed : ∀ path i, UserPath depth (path ++ [i]) → UserPath depth path :=
    fun _ _ user => user.front
  have forest := inv.forest.plant loose.off loose.used same (UserPath depth) closed empty
  have kept := inv.forest.reach_off loose.off same
  have live : ∀ root path page, Inside depth roots fixed root path →
      reach child s.memory root path = some page → page ≠ pg := by
    rintro root path page member reached rfl
    exact loose.off root path member reached
  have split : ∀ root path, Inside depth (pg :: roots) fixed root path →
      Inside depth roots fixed root path ∨ (root = pg ∧ UserPath depth path) := by
    rintro root path (⟨member, user⟩ | member)
    · rcases List.mem_cons.mp member with rfl | old
      · exact .inr ⟨rfl, user⟩
      · exact .inl (.inl ⟨old, user⟩)
    · exact .inl (.inr member)
  refine ⟨⟨inside_forest forest split, ?_, inv.nodup, ?_, ?_, ?_⟩, ⟨?_, ?_⟩,
    ⟨kept, fun root path page member reached => same page (live root path page member reached)⟩⟩
  · intro root rooted member
    rcases List.mem_cons.mp rooted with rfl | old
    · exact loose.off root [] (.inr ⟨member, rfl⟩) rfl
    · exact inv.apart root old member
  · intro page free
    obtain ⟨small, magic, unused⟩ := inv.ready page free
    have other : page ≠ pg := by
      rintro rfl
      exact loose.used free
    refine ⟨small, ?_, unused⟩
    show update s.memory pg words page 0 = _
    rw [same page other]
    exact magic
  · intro root rooted path i table user short reached
    rcases List.mem_cons.mp rooted with rfl | old
    · rcases reach_blank closed empty path user.front with rfl | missing
      · cases reached
        left
        show update s.memory root words root i = 0
        rw [update_self]
        exact blank i (user.user i rfl)
      · rw [missing] at reached
        cases reached
    · have member : Inside depth roots fixed root path := .inl ⟨old, user.front⟩
      change reach child (update s.memory pg words) root path = _ at reached
      rw [kept root path member] at reached
      show update s.memory pg words table i = 0 ∨
        ∃ page < 2 ^ 40, update s.memory pg words table i = tableEntry page
      rw [same table (live root path table member reached)]
      exact inv.tables root old path i table user short reached
  · intro root path page member reached
    rcases split root path member with old | ⟨rfl, user⟩
    · change reach child (update s.memory pg words) root path = _ at reached
      rw [kept root path old] at reached
      exact inv.counts root path page old reached
    · rcases reach_blank closed empty path user with rfl | missing
      · cases reached
        exact loose.count
      · rw [missing] at reached
        cases reached
  · intro root rooted i _
    show update s.memory pg words root i = _
    rw [same root (live root [] root (.inl ⟨rooted, UserPath.nil depth⟩) rfl)]
  · intro page member
    exact same page (live page [] page (.inr ⟨member, rfl⟩) rfl)

end

/-- `PMap_NewAS` adds an empty address space whose kernel half is the system's. -/
structure Added (depth : Nat) (roots fixed : List Nat) (systemRoot as root : Nat) (s t : Frames) :
  Prop where
  inv : Inv depth (root :: roots) (as :: fixed) t
  kept : Kept roots fixed s t
  upper : ∀ i, PAGETABLE_ENTRIES / 2 ≤ i → t.memory root i = t.memory systemRoot i
  entries : ∀ root' ∈ roots, ∀ va < MEM_USERSPACE_TOP, entryAt t root' va = entryAt s root' va
  empty : ∀ va < MEM_USERSPACE_TOP, entryAt t root va = 0

theorem Inv.newAS (inv : Inv depth roots fixed s) (deep : 3 ≤ depth) {systemRoot as : Nat}
    (system : systemRoot ∈ fixed) (ran : pMap_NewAS systemRoot s = some ((as, root), t)) :
    Added depth roots fixed systemRoot as root s t := by
  unfold pMap_NewAS at ran
  obtain ⟨⟨page, v⟩, first, ran⟩ := bind_eq_some_iff.mp ran
  obtain ⟨⟨page', w⟩, second, ran⟩ := bind_eq_some_iff.mp ran
  obtain ⟨taken, loose, kept, same⟩ := inv.take (pAlloc_AllocPage_allocates first)
  obtain ⟨taken', loose', kept', same'⟩ :=
    (taken.addFixed loose).take (pAlloc_AllocPage_allocates second)
  cases ran
  obtain ⟨done, filled, same''⟩ := taken'.addRoot loose'
    (fun i => if i < PAGETABLE_ENTRIES / 2 then 0 else w.memory systemRoot i)
    (fun i low => if_pos low)
  refine ⟨done, ⟨?_, ?_⟩, ?_, ?_, ?_⟩
  · intro other member i high
    exact (filled.upper other member i high).trans
      ((kept'.upper other member i high).trans (kept.upper other member i high))
  · intro page member
    have later := List.mem_cons_of_mem as member
    exact (filled.fixed page later).trans ((kept'.fixed page later).trans (kept.fixed page member))
  · intro i high
    rw [filled.fixed systemRoot (List.mem_cons_of_mem _ system)]
    show update w.memory root _ root i = _
    rw [update_self, if_neg (not_lt.mpr high)]
  · intro root' rooted va user
    exact (same''.entryAt deep rooted user).trans
      ((same'.entryAt deep rooted user).trans (same.entryAt deep rooted user))
  · intro va user
    have low : index va ROOT_PGSHIFT < PAGETABLE_ENTRIES / 2 := (pathOf_user deep user).user _ rfl
    have none : child (update w.memory root
        (fun i => if i < PAGETABLE_ENTRIES / 2 then 0 else w.memory systemRoot i) root
        (index va ROOT_PGSHIFT)) = none := by
      rw [update_self, if_pos low]
      rfl
    unfold PMap.entryAt lookup pathOf
    simp only [reach]
    rw [none]
    rfl

end

end BoringOs.PMap
