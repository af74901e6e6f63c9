import BoringOs.Isolation
import BoringOs.Loader

/-! The address space that `Loader_Load` builds: every page has a frame of its own, which is in use
for nothing else. -/

namespace BoringOs.PMap

open PAlloc RadixTree Option

section

variable {roots fixed : List Nat} {s : Frames}

theorem UserPath.deeper {path : List Nat} (user : UserPath 3 path) : UserPath 4 path :=
  ⟨Nat.le_succ_of_le user.short, user.user⟩

theorem Inside.deeper {root : Nat} {path : List Nat} (inside : Inside 3 roots fixed root path) :
    Inside 4 roots fixed root path := by
  rcases inside with ⟨member, user⟩ | other
  · exact Or.inl ⟨member, user.deeper⟩
  · exact Or.inr other

theorem Inv.shallow (inv : Inv 4 roots fixed s) : Inv 3 roots fixed s where
  forest := by
    refine ⟨?_, ?_, ?_⟩
    · rintro root path i (⟨member, user⟩ | ⟨_, empty⟩)
      · exact Or.inl ⟨member, user.front⟩
      · simp at empty
    · intro root path root' path' node inside inside'
      exact inv.forest.unique root path root' path' node inside.deeper inside'.deeper
    · intro root path node inside
      exact inv.forest.live root path node inside.deeper
  apart := inv.apart
  nodup := inv.nodup
  ready := inv.ready
  tables root member path i table user := inv.tables root member path i table user.deeper
  counts root path page inside := inv.counts root path page inside.deeper

end

def DIRECTMAP_PAGES : Nat := MEM_DIRECTMAP_LEN / PGSIZE

/-- Every mapped page was given to the address space by `PMap_AllocMap` with `PTE_W`, and the direct
map reaches all memory that there is. -/
structure Plain (root : Nat) (s : Frames) : Prop where
  spare : ∀ pg ∈ s.freeList, pg < DIRECTMAP_PAGES
  entries : ∀ va < MEM_USERSPACE_TOP, entryAt s root va = 0 ∨
    ∃ pg < DIRECTMAP_PAGES, entryAt s root va = tableEntry pg

/-- The address space of a process that is being loaded. -/
structure Space (roots fixed : List Nat) (root : Nat) (s : Frames) : Prop where
  inv : Inv 4 roots fixed s
  leaves : Leaves roots s
  rooted : root ∈ roots
  plain : Plain root s

def frameAt (s : Frames) (root va : Nat) : Nat := entryAt s root va / PGSIZE

section

variable {roots fixed : List Nat} {s t : Frames} {root virt va other : Nat}

theorem allotted_entry (pg : Nat) : pg * PGSIZE ||| PTE_P ||| PTE_U ||| PTE_W = tableEntry pg := by
  unfold tableEntry
  rw [Nat.or_assoc, Nat.or_comm PTE_U, ← Nat.or_assoc]

theorem pMapDescend_spare {table i next : Nat} (ran : pMapDescend table i s = some (next, t)) :
    t.freeList ⊆ s.freeList := by
  unfold pMapDescend pMapAllocPageTable at ran
  dsimp only at ran
  split at ran
  · obtain ⟨⟨pg, v⟩, made, result⟩ := bind_eq_some_iff.mp ran
    obtain ⟨⟨pg', w⟩, allocated, cleared⟩ := bind_eq_some_iff.mp made
    cases cleared
    cases result
    rw [(pAlloc_AllocPage_allocates allocated).head]
    exact List.subset_cons_self _ _
  · cases ran
    exact List.Subset.refl _

theorem pMapLookupEntry_spare {place : Nat × Nat} (ran : pMapLookupEntry root va PGSIZE s = some (place, t)) :
    t.freeList ⊆ s.freeList := by
  obtain ⟨⟨_, u⟩, first, ran⟩ := bind_eq_some_iff.mp ran
  obtain ⟨⟨_, v⟩, second, ran⟩ := bind_eq_some_iff.mp ran
  obtain ⟨⟨_, w⟩, third, ran⟩ := bind_eq_some_iff.mp ran
  cases ran
  exact List.Subset.trans (pMapDescend_spare third)
    (List.Subset.trans (pMapDescend_spare second) (pMapDescend_spare first))

theorem putAlloc_spare {flags k table l : Nat} (ran : putAlloc flags k table l s = some t) :
    t.freeList ⊆ s.freeList := by
  unfold putAlloc at ran
  split at ran
  · obtain ⟨⟨pg, v⟩, allocated, result⟩ := bind_eq_some_iff.mp ran
    cases result
    rw [(pAlloc_AllocPage_allocates allocated).head]
    exact List.subset_cons_self _ _
  · cases ran
    exact List.Subset.refl _

theorem Plain.put (plain : Plain root s) (rooted : root ∈ roots)
    (put : Put roots fixed root va (Allotted s.freeList PTE_W) s t) (spare : t.freeList ⊆ s.freeList)
    (user : va < MEM_USERSPACE_TOP) : Plain root t := by
  refine ⟨fun pg member => plain.spare pg (spare member), ?_⟩
  intro other user'
  by_cases same : other / PGSIZE = va / PGSIZE
  · have allotted := put.entry
    unfold Allotted at allotted
    rw [entryAt_congr same]
    split at allotted
    · rw [allotted]
      exact plain.entries va user
    · obtain ⟨pg, member, new⟩ := allotted
      exact Or.inr ⟨pg, plain.spare pg member, new.trans (allotted_entry pg)⟩
  · rw [put.others root rooted other user' (fun here => same here.2)]
    exact plain.entries other user'

theorem eachPage_spends (rooted : root ∈ roots) :
    ∀ left i s t, i + left ≤ 2 ^ 19 → virt + (i + left) * PGSIZE ≤ MEM_USERSPACE_TOP →
      Inv 3 roots fixed s → Plain root s → eachPage root virt (putAlloc PTE_W) left i s = some t →
      s.freeList.length ≤ t.freeList.length + 4 * left ∧ Plain root t := by
  intro left
  induction left with
  | zero =>
    intro i s t _ _ _ plain ran
    cases ran
    exact ⟨le_rfl, plain⟩
  | succ left ih =>
    intro i s t few below inv plain ran
    have sum : i + (left + 1) = i + 1 + left := by omega
    rw [sum] at few below
    obtain ⟨address, user⟩ := address_of (k := i) (by omega) (by omega) below
    obtain ⟨⟨⟨table, l⟩, v⟩, looked, ran⟩ := bind_eq_some_iff.mp ran
    rw [address] at looked
    have fewer := pMapLookupEntry_spare looked
    obtain ⟨walked, found, rfl⟩ := inv.lookupEntry le_rfl rooted user looked
    have plain' : Plain root v := by
      refine ⟨fun pg member => plain.spare pg (fewer member), fun va user => ?_⟩
      rw [walked.entries root rooted va user]
      exact plain.entries va user
    obtain ⟨w, stored, ran⟩ := bind_eq_some_iff.mp ran
    have put := putAlloc_allots walked.inv rooted user found stored
    obtain ⟨rest, plain''⟩ := ih (i + 1) w t few below put.inv
      (plain'.put rooted put (putAlloc_spare stored) user) ran
    have := walked.spent
    have := put.spent
    exact ⟨by omega, plain''⟩

theorem pMap_AllocMap_eachPage {len : Nat} (aligned : virt % PGSIZE = 0) (few : pagesOf len ≤ 2 ^ 19) :
    pMap_AllocMap root virt len PTE_W s = eachPage root virt (putAlloc PTE_W) (pagesOf len) 0 s := by
  have mask : virt &&& PGMASK = 0 := by
    have : virt &&& PGMASK = virt % 2 ^ 12 := Nat.and_two_pow_sub_one_eq_mod _ 12
    rw [this]
    exact aligned
  have pages : add64 len (PGSIZE - 1) / PGSIZE = pagesOf len := by
    unfold pagesOf PGSIZE at few ⊢
    rw [add64_of_lt]
    · rfl
    · unfold word64
      omega
  unfold pMap_AllocMap
  dsimp only
  rw [pages, if_pos mask, passes, min_eq_left (by omega)]

section

variable (space : Space roots fixed root s)
include space

theorem Space.allocMap_ends {len : Nat} (aligned : virt % PGSIZE = 0)
    (few : pagesOf len ≤ 2 ^ 19) (below : virt + pagesOf len * PGSIZE ≤ MEM_USERSPACE_TOP)
    (free : 4 * pagesOf len ≤ s.freeList.length) :
    ∃ t, pMap_AllocMap root virt len PTE_W s = some t := by
  rw [pMap_AllocMap_eachPage aligned few]
  refine eachPage_ends space.rooted
    (fun i s t table inv user found ran => putAlloc_puts (k := i) inv space.rooted user found ran)
    (fun _ _ _ _ inv free => putAlloc_ends inv free) (pagesOf len) 0 s (by omega) ?_ space.inv.shallow free
  rwa [zero_add]

theorem Space.allocMap {len : Nat} (aligned : virt % PGSIZE = 0)
    (few : pagesOf len ≤ 2 ^ 19) (below : virt + pagesOf len * PGSIZE ≤ MEM_USERSPACE_TOP)
    (ran : pMap_AllocMap root virt len PTE_W s = some t) :
    Space roots fixed root t ∧
      (∀ va, virt ≤ va → va < virt + pagesOf len * PGSIZE → entryAt t root va ≠ 0) ∧
      (∀ va < MEM_USERSPACE_TOP, entryAt s root va ≠ 0 → entryAt t root va ≠ 0) ∧
      s.freeList.length ≤ t.freeList.length + 4 * pagesOf len := by
  rw [pMap_AllocMap_eachPage aligned few] at ran
  have few' : 0 + pagesOf len ≤ 2 ^ 19 := by omega
  have below' : virt + (0 + pagesOf len) * PGSIZE ≤ MEM_USERSPACE_TOP := by rwa [zero_add]
  have mapped : Mapped roots fixed root virt 0 (pagesOf len) (fun _ => Filled) s t :=
    eachPage_maps space.rooted
    (fun i s t table inv user found ran => putAlloc_puts inv space.rooted user found ran)
    (pagesOf len) 0 s t few' below' space.inv.shallow ran
  obtain ⟨inv, leaves, _⟩ := eachPage_owns space.rooted ⟨PTE_W, by decide, Or.inl rfl⟩ (pagesOf len) 0
    s t few' below' space.inv space.leaves ran
  obtain ⟨spent, plain⟩ := eachPage_spends space.rooted _ _ _ _ few' below' space.inv.shallow space.plain ran
  have inside : ∀ va, virt ≤ va → va < virt + pagesOf len * PGSIZE → entryAt t root va ≠ 0 := by
    intro va low high zero
    have page : va / PGSIZE = (virt + (va / PGSIZE - virt / PGSIZE) * PGSIZE) / PGSIZE := by
      rw [page_of]
      unfold PGSIZE at *
      omega
    have filled := mapped.entries (va / PGSIZE - virt / PGSIZE) (Nat.zero_le _) (by
      unfold PGSIZE at *
      omega)
    rw [← entryAt_congr page, ← entryAt_congr page, zero] at filled
    unfold Filled at filled
    split at filled <;> omega
  refine ⟨⟨inv, leaves, space.rooted, plain⟩, inside, ?_, spent⟩
  intro va user old
  by_cases here : virt ≤ va ∧ va < virt + pagesOf len * PGSIZE
  · exact inside va here.1 here.2
  · rw [mapped.others root space.rooted va user (fun _ k _ high page => here ?_)]
    · exact old
    · rw [page_of] at page
      unfold PGSIZE at *
      omega

section

variable (user : va < MEM_USERSPACE_TOP)
include user

section

variable (mapped : entryAt s root va ≠ 0)
include mapped

theorem Space.mappedEntry :
    ∃ pg < 2 ^ 40, entryAt s root va = tableEntry pg := by
  obtain ⟨pg, small, entry⟩ := (space.plain.entries va user).resolve_left mapped
  exact ⟨pg, lt_trans small (by decide), entry⟩

theorem Space.frame_reached : frameAt s root va < DIRECTMAP_PAGES := by
  obtain ⟨pg, small, entry⟩ := (space.plain.entries va user).resolve_left mapped
  rw [frameAt, entry, tableEntry_eq]
  unfold PGSIZE at *
  omega

theorem Space.translate :
    pMap_Translate root va s = some (frameAt s root va * PGSIZE + va % PGSIZE) := by
  obtain ⟨pg, small, entry⟩ := space.mappedEntry user mapped
  have frame : tableEntry pg &&& FRAMEMASK = tableEntry pg / PGSIZE * PGSIZE := by
    rw [tableEntry_eq]
    refine and_framemask ?_
    unfold PGSIZE
    omega
  have offset : va &&& PGMASK = va % PGSIZE := Nat.and_two_pow_sub_one_eq_mod _ 12
  rw [space.inv.shallow.translate space.rooted user mapped, frameAt, entry, frame, offset]

theorem Space.reaches :
    reach child s.memory root (pathOf va ++ [index va PGSHIFT]) = some (frameAt s root va) ∧
      Inside 4 roots fixed root (pathOf va ++ [index va PGSHIFT]) := by
  obtain ⟨pg, small, entry⟩ := space.mappedEntry user mapped
  refine ⟨?_, Or.inl ⟨space.rooted, by simp [pathOf], (pathOf_user le_rfl user).user⟩⟩
  have page : frameAt s root va = pg := by
    rw [frameAt, entry, tableEntry_eq]
    unfold PGSIZE
    omega
  cases found : reach child s.memory root (pathOf va) with
  | none =>
    refine absurd ?_ mapped
    unfold entryAt lookup
    rw [found]
  | some table =>
    have word := entryAt_found found
    rw [reach_snoc, found, page]
    show child (s.memory table (index va PGSHIFT)) = some pg
    rw [← word, entry, child_tableEntry small]

end

theorem Space.frames_differ (user' : other < MEM_USERSPACE_TOP) (mapped : entryAt s root va ≠ 0)
    (mapped' : entryAt s root other ≠ 0) (same : frameAt s root va = frameAt s root other) :
    va / PGSIZE = other / PGSIZE := by
  obtain ⟨reached, inside⟩ := space.reaches user mapped
  obtain ⟨reached', inside'⟩ := space.reaches user' mapped'
  rw [← same] at reached'
  obtain ⟨_, path⟩ := space.inv.forest.unique _ _ _ _ _ inside inside' reached reached'
  obtain ⟨front, last⟩ := List.append_inj path (by simp [pathOf])
  exact pathOf_injective user user' front (List.cons.inj last).1

theorem Space.frame_free (mapped : entryAt s root va ≠ 0) : frameAt s root va ∉ fixed := by
  obtain ⟨reached, inside⟩ := space.reaches user mapped
  intro used
  obtain ⟨_, path⟩ := space.inv.forest.unique _ _ _ _ _ inside (Or.inr ⟨used, rfl⟩) reached rfl
  simp at path

end

end

theorem Owned.newSpace {k k' : Kernel} (owned : Owned k) (ran : apply k .newAS = some k')
    (reached : ∀ pg ∈ k.frames.freeList, pg < DIRECTMAP_PAGES) :
    ∃ root, Space k'.roots k'.fixed root k'.frames ∧
      k'.frames.freeList.length + 2 = k.frames.freeList.length := by
  have owned' := owned.newAS ran
  obtain ⟨⟨⟨as, root⟩, frames⟩, created, result⟩ := map_eq_some_iff.mp ran
  have added := owned.inv.newAS (by decide) k.system_fixed created
  obtain ⟨⟨_, v⟩, first, rest⟩ := bind_eq_some_iff.mp created
  obtain ⟨⟨_, w⟩, second, made⟩ := bind_eq_some_iff.mp rest
  have list : k.frames.freeList = as :: root :: frames.freeList := by
    rw [(pAlloc_AllocPage_allocates first).head, (pAlloc_AllocPage_allocates second).head]
    cases made
    rfl
  cases result
  refine ⟨root, ⟨owned'.inv, owned'.leaves, List.mem_cons_self, ?_, ?_⟩, ?_⟩
  · intro pg member
    refine reached pg ?_
    rw [list]
    exact List.mem_cons_of_mem _ (List.mem_cons_of_mem _ member)
  · intro va user
    exact Or.inl (added.empty va user)
  · rw [list]
    rfl

end

end BoringOs.PMap
