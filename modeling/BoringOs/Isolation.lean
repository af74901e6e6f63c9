import BoringOs.AddressSpace

/-! The pages of address spaces that all come from `PMap_AllocMap`: the trees go one level deeper,
and no page is reached twice. -/

namespace BoringOs.PMap

open PAlloc RadixTree Runs Option

/-- No two paths into the user halves end in the same page, every page they end in has one
reference and is not free, nor is it used for anything else, and the kernel halves are the
system's. -/
structure Isolated (k : Kernel) : Prop where
  distinct : ∀ root ∈ k.roots, ∀ root' ∈ k.roots, ∀ path path' page, UserPath 4 path →
    UserPath 4 path' → reach child k.frames.memory root path = some page →
    reach child k.frames.memory root' path' = some page → root = root' ∧ path = path'
  counts : ∀ root ∈ k.roots, ∀ path page, UserPath 4 path →
    reach child k.frames.memory root path = some page →
    k.frames.refCount page = 1 ∧ page ∉ k.frames.freeList ∧ page ∉ k.fixed
  upper : ∀ root ∈ k.roots, ∀ i, PAGETABLE_ENTRIES / 2 ≤ i →
    k.frames.memory root i = k.frames.memory k.systemRoot i

def AllocFlags (flags : Nat) : Prop := ∃ low < PGSIZE, flags = low ∨ flags = low ||| PTE_NX

def Owning : Call → Prop
  | .newAS => True
  | .map _ _ _ _ _ => False
  | .allocMap _ _ _ flags => AllocFlags flags

def Leaves (roots : List Nat) (s : Frames) : Prop :=
  ∀ root ∈ roots, ∀ va < MEM_USERSPACE_TOP, entryAt s root va = 0 ∨ entryAt s root va % 2 = 1

section

variable {roots fixed : List Nat} {s t : Frames} {root table va : Nat}

theorem child_alloc {pg flags : Nat} (small : pg < 2 ^ 40) (plain : AllocFlags flags) :
    child (pg * PGSIZE ||| PTE_P ||| PTE_U ||| flags) = some pg := by
  obtain ⟨low, short, cases⟩ := plain
  have odd := or_present (pg * PGSIZE) flags
  have few : PTE_P ||| PTE_U ||| low < PGSIZE :=
    Nat.or_lt_two_pow (n := 12) (by decide) short
  have entry : pg * PGSIZE ||| PTE_P ||| PTE_U ||| low = pg * PGSIZE + (PTE_P ||| PTE_U ||| low) := by
    rw [Nat.or_assoc, Nat.or_assoc, ← Nat.or_assoc PTE_P]
    exact or_low few
  have page : pageOf (pg * PGSIZE ||| PTE_P ||| PTE_U ||| flags) = pg := by
    unfold pageOf
    rcases cases with rfl | rfl
    · rw [entry]
      unfold PGSIZE at *
      omega
    · have high : pg * PGSIZE ||| PTE_P ||| PTE_U ||| (low ||| PTE_NX) =
          2 ^ 63 + (pg * PGSIZE + (PTE_P ||| PTE_U ||| low)) := by
        have below : pg * PGSIZE + (PTE_P ||| PTE_U ||| low) < 2 ^ 63 := by
          unfold PGSIZE at *
          omega
        have := Nat.two_pow_add_eq_or_of_lt below 1
        rw [mul_one] at this
        have top : PTE_NX = 2 ^ 63 := by decide
        rw [this, ← entry, top]
        ac_rfl
      rw [high]
      unfold PGSIZE at *
      omega
  rw [child, if_neg (by omega), page]

theorem putAlloc_owns (inv : Inv 4 roots fixed s) (leaves : Leaves roots s) (rooted : root ∈ roots)
    (user : va < MEM_USERSPACE_TOP) (found : reach child s.memory root (pathOf va) = some table)
    {flags k : Nat} (plain : AllocFlags flags)
    (ran : putAlloc flags k table (index va PGSHIFT) s = some t) :
    Inv 4 roots fixed t ∧ Leaves roots t ∧ Kept roots fixed s t := by
  have here := entryAt_found found
  unfold putAlloc at ran
  split at ran
  · rename_i missing
    rw [Ne, and_present] at missing
    have empty : s.memory table (index va PGSHIFT) = 0 := by
      rw [← here] at missing ⊢
      rcases leaves root rooted va user with zero | odd
      · exact zero
      · exact absurd odd missing
    obtain ⟨⟨pg, v⟩, allocated, result⟩ := bind_eq_some_iff.mp ran
    have got := pAlloc_AllocPage_allocates allocated
    have spare := got.spare
    cases result
    have path : UserPath 4 (pathOf va ++ [index va PGSHIFT]) :=
      ⟨by simp [pathOf], (pathOf_user (by decide : 3 ≤ 4) user).user⟩
    have named := child_alloc (inv.ready pg spare).1 plain
    have above : Inside 4 roots fixed root (pathOf va) := Or.inl ⟨rooted, path.front⟩
    obtain ⟨kept, _, same⟩ := inv.hang rooted path found empty got named
      (fun short => absurd short (by simp [pathOf]))
    refine ⟨kept, ?_, same⟩
    intro root' rooted' va' user'
    have inner : Inside 4 roots fixed root' (pathOf va') :=
      Or.inl ⟨rooted', pathOf_user (by decide) user'⟩
    have hung := allocated_hung inv above found empty got named
    rcases inv.forest.reach_hang (Or.inl ⟨rooted, path⟩) found spare hung root' (pathOf va') inner with
      ⟨_, longer, _⟩ | ⟨_, old⟩
    · exact absurd (congrArg List.length longer) (by simp [pathOf])
    · have before := leaves root' rooted' va' user'
      unfold entryAt lookup at before ⊢
      rw [old]
      cases reached : reach child s.memory root' (pathOf va') with
      | none => exact Or.inl rfl
      | some node =>
        rw [reached] at before
        have live := inv.table_live inner reached
        dsimp only
        by_cases same : node = table ∧ index va' PGSHIFT = index va PGSHIFT
        · right
          rw [store_memory, if_pos same]
          exact or_present _ _
        · rw [hung.same node _ (fun equal => live (equal ▸ spare)) (not_and_or.mp same)]
          exact before
  · cases ran
    exact ⟨inv, leaves, Kept.refl _ _ _⟩

theorem eachPage_owns {virt flags : Nat} (rooted : root ∈ roots) (plain : AllocFlags flags) :
    ∀ left i s t, i + left ≤ 2 ^ 19 → virt + (i + left) * PGSIZE ≤ MEM_USERSPACE_TOP →
      Inv 4 roots fixed s → Leaves roots s → eachPage root virt (putAlloc flags) left i s = some t →
      Inv 4 roots fixed t ∧ Leaves roots t ∧ Kept roots fixed s t := by
  intro left
  induction left with
  | zero =>
    intro i s t _ _ inv leaves ran
    cases ran
    exact ⟨inv, leaves, Kept.refl _ _ _⟩
  | succ left ih =>
    intro i s t few below inv leaves ran
    have sum : i + (left + 1) = i + 1 + left := by omega
    rw [sum] at few below
    obtain ⟨address, user⟩ := address_of (k := i) (by omega) (by omega) below
    obtain ⟨⟨⟨table, l⟩, v⟩, looked, ran⟩ := bind_eq_some_iff.mp ran
    rw [address] at looked
    obtain ⟨walked, found, rfl⟩ := inv.lookupEntry (by decide) rooted user looked
    obtain ⟨w, stored, ran⟩ := bind_eq_some_iff.mp ran
    have unchanged : Leaves roots v := by
      intro root' rooted' va' user'
      rw [walked.entries root' rooted' va' user']
      exact leaves root' rooted' va' user'
    obtain ⟨inv', leaves', kept⟩ := putAlloc_owns walked.inv unchanged rooted user found plain stored
    obtain ⟨inv'', leaves'', kept'⟩ := ih (i + 1) w t few below inv' leaves' ran
    exact ⟨inv'', leaves'', (walked.kept.trans kept).trans kept'⟩

end

structure Owned (k : Kernel) : Prop where
  inv : Inv 4 k.roots k.fixed k.frames
  leaves : Leaves k.roots k.frames
  upper : ∀ root ∈ k.roots, ∀ i, PAGETABLE_ENTRIES / 2 ≤ i →
    k.frames.memory root i = k.frames.memory k.systemRoot i

section

variable {k k' : Kernel}

theorem Owned.newAS (owned : Owned k) (ran : apply k .newAS = some k') : Owned k' := by
  obtain ⟨⟨⟨as, root⟩, frames⟩, created, result⟩ := map_eq_some_iff.mp ran
  cases result
  have added := owned.inv.newAS (by decide) k.system_fixed created
  refine ⟨added.inv, ?_, ?_⟩
  · intro root' member va user
    rcases List.mem_cons.mp member with rfl | old
    · exact Or.inl (added.empty va user)
    · rw [added.entries root' old va user]
      exact owned.leaves root' old va user
  · intro root' member i high
    rcases List.mem_cons.mp member with rfl | old
    · exact added.upper i high
    · show frames.memory root' i = frames.memory k.systemRoot i
      rw [added.kept.upper root' old i high, added.kept.fixed _ k.system_fixed]
      exact owned.upper root' old i high

theorem Owned.allocMap (owned : Owned k) {root virt len flags : Nat} (rooted : root ∈ k.roots)
    (plain : AllocFlags flags) (range : UserRange virt (pagesOf len)) {t : Frames}
    (ran : pMap_AllocMap root virt len flags k.frames = some t) : Owned { k with frames := t } := by
  unfold pMap_AllocMap at ran
  dsimp only at ran
  rw [pagesOf_eq range, passes_of range] at ran
  split at ran
  · obtain ⟨inv, leaves, kept⟩ := eachPage_owns rooted plain (pagesOf len) 0 _ _
      (by have := range.few; omega) (by rw [zero_add]; exact range.below) owned.inv owned.leaves ran
    refine ⟨inv, leaves, ?_⟩
    intro root' member i high
    show t.memory root' i = t.memory k.systemRoot i
    rw [kept.upper root' member i high, kept.fixed _ k.system_fixed]
    exact owned.upper root' member i high
  · cases ran

theorem Owned.step (owned : Owned k) {call : Call} (moved : Owning call ∧ Step k call k') : Owned k' := by
  obtain ⟨owning, allowed, ran⟩ := moved
  cases call with
  | newAS => exact owned.newAS ran
  | map root phys virt pages flags => exact owning.elim
  | allocMap root virt len flags =>
    simp only [apply] at ran
    split at ran
    · rename_i rooted
      obtain ⟨frames, mapped, rfl⟩ := map_eq_some_iff.mp ran
      exact owned.allocMap rooted owning allowed mapped
    · cases ran

theorem Started.owned (started : Started k) : Owned k := by
  have roots : k.roots = [] := by
    rw [Kernel.roots, started.spaces]
    rfl
  refine ⟨started.inv 4, ?_, ?_⟩
  · intro root member
    rw [roots] at member
    cases member
  · intro root member
    rw [roots] at member
    cases member

end

/-- In every run of `PMap_NewAS` and `PMap_AllocMap` calls whose flags lie in the low 12 bits and
`PTE_NX`, the address spaces share no page. -/
theorem address_spaces_isolated {start k : Kernel} (started : Started start) {calls : List Call}
    (ran : Run (fun k call k' => Owning call ∧ Step k call k') start calls k) : Isolated k := by
  have owned : Owned k :=
    Run.invariant Owned (fun _ _ _ owned moved => owned.step moved) ran started.owned
  have inside : ∀ root ∈ k.roots, ∀ path, UserPath 4 path → Inside 4 k.roots k.fixed root path :=
    fun root member path user => Or.inl ⟨member, user⟩
  refine ⟨?_, ?_, owned.upper⟩
  · intro root member root' member' path path' page user user' reached reached'
    exact owned.inv.forest.unique _ _ _ _ _ (inside root member path user)
      (inside root' member' path' user') reached reached'
  · intro root member path page user reached
    have here := inside root member path user
    refine ⟨owned.inv.counts root path page here reached, owned.inv.table_live here reached, ?_⟩
    intro other
    obtain ⟨rfl, rfl⟩ := owned.inv.forest.unique _ _ _ _ _ here (Or.inr ⟨other, rfl⟩) reached rfl
    exact owned.inv.apart root member other

/-- Two address spaces with pages at the same addresses. -/
def twoSpaces : List Call :=
  [.newAS, .newAS, .allocMap 2 0x400000 0x2000 2, .allocMap 4 0x400000 0x1000 2]

theorem address_spaces_isolated_two_spaces :
    ∃ k, Run (fun k call k' => Owning call ∧ Step k call k') twentyPages twoSpaces k ∧
      (2 ∈ k.roots ∧ 4 ∈ k.roots) ∧ Isolated k := by
  have moves : ∀ k, ∀ call ∈ twoSpaces, ∀ k', apply k call = some k' →
      Owning call ∧ Step k call k' := by
    intro k call member k' moved
    have plain : AllocFlags 2 := ⟨2, by decide, Or.inl rfl⟩
    simp only [twoSpaces, List.mem_cons, List.not_mem_nil, or_false] at member
    rcases member with rfl | rfl | rfl | rfl
    · exact ⟨trivial, trivial, moved⟩
    · exact ⟨trivial, trivial, moved⟩
    · exact ⟨plain, ⟨by decide, by decide, by decide⟩, moved⟩
    · exact ⟨plain, ⟨by decide, by decide, by decide⟩, moved⟩
  have ends : (twoSpaces.foldlM apply twentyPages).any
      (fun k => decide (2 ∈ k.roots ∧ 4 ∈ k.roots)) = true := by decide +kernel
  obtain ⟨k, ran, spaces⟩ := Run.of_exec_any moves ends
  exact ⟨k, ran, of_decide_eq_true spaces, address_spaces_isolated twentyPages_started ran⟩

/-- A page whose flags reach into its page number. -/
def strayFlags : List Call := [.newAS, .allocMap 2 0x400000 0x1000 0x1000]

/-- With bit 12 among the flags an entry names a page that is still free. -/
theorem flags_name_free_page : ∃ k, Run Step twentyPages strayFlags k ∧ ¬ Isolated k := by
  have moves : ∀ k, ∀ call ∈ strayFlags, ∀ k', apply k call = some k' → Step k call k' := by
    intro k call member k' moved
    simp only [strayFlags, List.mem_cons, List.not_mem_nil, or_false] at member
    rcases member with rfl | rfl
    · exact ⟨trivial, moved⟩
    · exact ⟨⟨by decide, by decide, by decide⟩, moved⟩
  have ends : (strayFlags.foldlM apply twentyPages).any
      (fun k => decide (2 ∈ k.roots ∧ 7 ∈ k.frames.freeList ∧
        reach child k.frames.memory 2 (pathOf 0x400000 ++ [index 0x400000 PGSHIFT]) = some 7)) =
      true := by decide +kernel
  obtain ⟨k, ran, shared⟩ := Run.of_exec_any moves ends
  obtain ⟨live, free, reached⟩ := of_decide_eq_true shared
  refine ⟨k, ran, fun isolated => ?_⟩
  exact (isolated.counts 2 live _ 7 ⟨by decide, by decide⟩ reached).2.1 free

end BoringOs.PMap
