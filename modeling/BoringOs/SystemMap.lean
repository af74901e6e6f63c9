import BoringOs.PMapTree

/-! The direct map of `PMap_Init` and `PMap_SystemLMap` in `sys/amd64/pmap.c`: large pages hang in a
tree of two levels below the root table of the system. -/

namespace BoringOs.PMap

open PAlloc RadixTree Option

def PTE_PCD : Nat := 0x10

def MEM_DIRECTMAP_BASE : Nat := 0xFFFF800000000000

def MEM_DIRECTMAP_LEN : Nat := 0x10000000000

/-- The `int` product `LARGE_PGSIZE * i`, converted for an addition to a `uint64_t`. -/
def largeScaled (i : Nat) : Nat := (toInt32 (LARGE_PGSIZE * i) % word64).toNat

/-- The entry that `PMap_SystemLMap` makes in round `i`. -/
def largeEntry (phys flags i : Nat) : Nat :=
  add64 phys (largeScaled i) ||| PTE_P ||| PTE_W ||| PTE_PS ||| flags

/-- The loop of `PMap_SystemLMap` from `i` on. -/
def eachLargePage (root phys virt flags : Nat) : Nat → Nat → Frames → Option Frames
  | 0, _, s => some s
  | left + 1, i, s => do
      let ((table, k), t) ← pMapLookupEntry root (add64 virt (largeScaled i)) LARGE_PGSIZE s
      eachLargePage root phys virt flags left (i + 1) (store table k (largeEntry phys flags i) t)

/-- `PMap_SystemLMap`. It does not return false: `PAlloc_AllocPage` does not return `NULL`. -/
def pMap_SystemLMap (root phys virt lpages flags : Nat) (s : Frames) : Option Frames :=
  eachLargePage root phys virt flags (passes lpages) 0 s

/-- The loop of `PMap_Init` that fills the upper half of the root table. -/
def initTables (root : Nat) : Nat → Nat → Frames → Option Frames
  | 0, _, s => some s
  | left + 1, i, s => do
      let (pgtbl, t) ← pMapAllocPageTable s
      initTables root left (i + 1) (store root i (pgtbl * PGSIZE ||| PTE_W ||| PTE_P) t)

def pMap_Init (s : Frames) : Option (Nat × Frames) := do
  let (root, s) ← pMapAllocPageTable s
  let s ← initTables root (PAGETABLE_ENTRIES / 2) (PAGETABLE_ENTRIES / 2) s
  let s ← pMap_SystemLMap root 0 MEM_DIRECTMAP_BASE (3 * 512) 0 s
  let s ← pMap_SystemLMap root 0xC0000000 (add64 MEM_DIRECTMAP_BASE 0xC0000000) 512 (PTE_NX ||| PTE_PCD) s
  let s ← pMap_SystemLMap root 0x100000000 (add64 MEM_DIRECTMAP_BASE 0x100000000) (60 * 512) 0 s
  return (root, s)

/-- The large page of an address, of the 48 bits that the tables look at. -/
def largePage (va : Nat) : Nat := va / 2 ^ 21 % 2 ^ 27

/-- The large pages that the `int` product moves by in round `i`, modulo `2 ^ 43`. -/
def largeShift (i : Nat) : Nat := if i % 2048 < 1024 then i % 2048 else 2 ^ 43 - 2048 + i % 2048

theorem largeScaled_eq (i : Nat) : largeScaled i = 2 ^ 21 * largeShift i := by
  unfold largeScaled largeShift toInt32 LARGE_PGSIZE word64
  split <;> split <;> omega

theorem largePage_round (virt i : Nat) :
    largePage (add64 virt (largeScaled i)) = (virt / 2 ^ 21 + largeShift i) % 2 ^ 27 := by
  rw [largeScaled_eq]
  unfold largePage add64 word64
  omega

theorem largeScaled_of_page {virt i j : Nat}
    (same : largePage (add64 virt (largeScaled i)) = largePage (add64 virt (largeScaled j))) :
    largeScaled i = largeScaled j := by
  rw [largePage_round, largePage_round] at same
  have round : i % 2048 = j % 2048 := by
    unfold largeShift at same
    split at same <;> split at same <;> omega
  rw [largeScaled_eq, largeScaled_eq, largeShift, largeShift, round]

def largePath (va : Nat) : List Nat := [index va ROOT_PGSHIFT, index va HUGE_PGSHIFT]

theorem largePath_inj {va other : Nat} :
    (largePath va = largePath other ∧ index va LARGE_PGSHIFT = index other LARGE_PGSHIFT) ↔
      largePage va = largePage other := by
  simp only [largePath, index_eq, ROOT_PGSHIFT, HUGE_PGSHIFT, LARGE_PGSHIFT, List.cons.injEq,
    and_true, largePage]
  constructor
  · rintro ⟨⟨first, second⟩, third⟩
    omega
  · intro same
    refine ⟨⟨?_, ?_⟩, ?_⟩ <;> omega

/-- The table that the kernel finds under an entry. -/
def below (pte : Nat) : Option Nat := if pte = 0 then none else some (tableOf pte)

/-- The paths to the tables that large pages hang in. -/
def Above (root r : Nat) (path : List Nat) : Prop := r = root ∧ path.length ≤ 2

/-- The entry of a large page, zero if its tables are missing. -/
def largeAt (s : Frames) (root va : Nat) : Nat :=
  lookup below 0 s.memory root (largePath va) (index va LARGE_PGSHIFT)

structure SystemTree (root : Nat) (s : Frames) : Prop where
  forest : Forest below s.memory (Above root) (· ∈ s.freeList)
  nodup : s.freeList.Nodup
  ready : ∀ pg ∈ s.freeList, pg < 2 ^ 40 ∧ s.magic pg = FREEPAGE_MAGIC_FREE ∧ s.refCount pg = 0

section

variable {root table i pg pte va : Nat} {s t u : Frames} {path : List Nat}

theorem below_eq_none : below pte = none ↔ pte = 0 := by
  unfold below
  split <;> simp_all

theorem largePath_above (root va : Nat) : Above root root (largePath va) := ⟨rfl, le_refl 2⟩

theorem SystemTree.hang (tree : SystemTree root s) (short : path.length < 2)
    (found : reach below s.memory root path = some table) (empty : s.memory table i = 0)
    (got : Allocated s pg u) (named : below pte = some pg) :
    SystemTree root (store table i pte u) ∧
      reach below (store table i pte u).memory root (path ++ [i]) = some pg ∧
      (∀ va, largeAt (store table i pte u) root va = largeAt s root va) ∧
      (∀ j, (table ≠ root ∨ j ≠ i) → (store table i pte u).memory root j = s.memory root j) := by
  have above : Above root root path := ⟨rfl, by omega⟩
  have member : Above root root (path ++ [i]) := by
    refine ⟨rfl, ?_⟩
    rw [List.length_append, List.length_singleton]
    omega
  have spare := got.spare
  have other : pg ≠ table := by
    rintro rfl
    exact tree.forest.live _ _ _ above found spare
  have hung : Hung below s.memory (store table i pte u).memory table i pg :=
    hung_of_allocated rfl got other empty named
  obtain ⟨distinct, old⟩ := got.rest tree.nodup
  refine ⟨⟨?_, distinct, ?_⟩, ?_, ?_, ?_⟩
  · have planted := tree.forest.hang member found spare hung
    exact ⟨planted.closed, planted.unique, fun r p node inner reached free =>
      planted.live r p node inner reached (old node free)⟩
  · intro page free
    obtain ⟨before, apart⟩ := old page free
    obtain ⟨small, magic, unused⟩ := tree.ready page before
    have away : page ≠ table := by
      rintro rfl
      exact tree.forest.live _ _ _ above found before
    refine ⟨small, ?_, ?_⟩
    · show (store table i pte u).memory page 0 = _
      rw [hung.same page 0 apart (Or.inl away)]
      exact magic
    · show u.refCount page = 0
      rw [got.refCount, Function.update_of_ne apart]
      exact unused
  · rcases tree.forest.reach_hang member found spare hung root (path ++ [i]) member with
      ⟨_, _, new⟩ | ⟨elsewhere, _⟩
    · exact new
    · exact absurd ⟨rfl, rfl⟩ elsewhere
  · intro va
    refine tree.forest.lookup_hang member found spare hung (store_blank got other i pte)
      (largePath_above root va) ?_ _
    rintro rfl
    exact absurd short (lt_irrefl 2)
  · intro j elsewhere
    refine hung.same root j ?_ (elsewhere.imp_left Ne.symm)
    rintro rfl
    exact tree.forest.live _ [] _ ⟨rfl, Nat.zero_le 2⟩ rfl spare

theorem SystemTree.descend (tree : SystemTree root s) (short : path.length < 2)
    (found : reach below s.memory root path = some table) {next : Nat}
    (ran : pMapDescend table i s = some (next, t)) :
    SystemTree root t ∧ reach below t.memory root (path ++ [i]) = some next ∧
      (∀ va, largeAt t root va = largeAt s root va) ∧ s.freeList.length ≤ t.freeList.length + 1 := by
  unfold pMapDescend at ran
  dsimp only at ran
  split at ran
  · rename_i empty
    obtain ⟨⟨pg, u⟩, allocated, result⟩ := bind_eq_some_iff.mp ran
    have got := pMapAllocPageTable_allocates allocated
    have spare := got.spare
    have table := tableOf_tableEntry (tree.ready pg spare).1
    have named : below (tableEntry pg) = some pg := by
      rw [below, if_neg (tableEntry_ne_zero pg), table]
    cases result
    obtain ⟨kept, reached, same, _⟩ := tree.hang short found empty got named
    refine ⟨kept, ?_, same, ?_⟩
    · change reach below _ root _ = some (tableOf (tableEntry pg))
      rw [table]
      exact reached
    · exact got.length.le
  · rename_i full
    cases ran
    refine ⟨tree, ?_, fun _ => rfl, Nat.le_succ _⟩
    rw [reach_snoc, found]
    exact if_neg full

structure LargePut (root va pte : Nat) (s t : Frames) : Prop where
  tree : SystemTree root t
  entry : ∀ other, largeAt t root other =
    if largePage other = largePage va then pte else largeAt s root other
  spent : s.freeList.length ≤ t.freeList.length + 2

theorem SystemTree.store (tree : SystemTree root s) (va : Nat)
    (found : reach below s.memory root (largePath va) = some table) (pte : Nat) :
    SystemTree root (store table (index va LARGE_PGSHIFT) pte s) ∧
      ∀ other, largeAt (PMap.store table (index va LARGE_PGSHIFT) pte s) root other =
        if largePage other = largePage va then pte else largeAt s root other := by
  have above := largePath_above root va
  have leaf : ∀ j, ¬ Above root root (largePath va ++ [j]) := by
    rintro j ⟨_, long⟩
    simp [largePath] at long
  have same : ∀ page j, page ≠ table ∨ j ≠ index va LARGE_PGSHIFT →
      (PMap.store table (index va LARGE_PGSHIFT) pte s).memory page j = s.memory page j := by
    intro page j elsewhere
    rw [store_memory, if_neg (fun both => elsewhere.elim (· both.1) (· both.2))]
  refine ⟨⟨tree.forest.store above found leaf (fun page j apart => same page j (Or.inl apart)),
    tree.nodup, ?_⟩, ?_⟩
  · intro page free
    obtain ⟨small, magic, unused⟩ := tree.ready page free
    refine ⟨small, ?_, unused⟩
    show (PMap.store _ _ _ _).memory page 0 = _
    rw [same page 0 (Or.inl ?_)]
    · exact magic
    · rintro rfl
      exact tree.forest.live _ _ _ above found free
  · intro other
    rcases tree.forest.lookup_store 0 above found leaf same (largePath_above root other)
      (index other LARGE_PGSHIFT) with ⟨_, path, last, new⟩ | ⟨elsewhere, old⟩
    · rw [if_pos (largePath_inj.mp ⟨path, last⟩)]
      refine new.trans ?_
      rw [store_memory, if_pos ⟨rfl, rfl⟩]
    · rw [if_neg (fun page => elsewhere ⟨rfl, largePath_inj.mpr page⟩)]
      exact old

theorem SystemTree.put (tree : SystemTree root s) {k : Nat}
    (ran : pMapLookupEntry root va LARGE_PGSIZE s = some ((table, k), t)) (pte : Nat) :
    LargePut root va pte s (PMap.store table k pte t) := by
  unfold pMapLookupEntry at ran
  obtain ⟨⟨first, s₁⟩, ran₁, ran⟩ := bind_eq_some_iff.mp ran
  obtain ⟨tree₁, reach₁, same₁, spent₁⟩ := tree.descend (by simp : ([] : List Nat).length < 2) rfl ran₁
  obtain ⟨⟨second, s₂⟩, ran₂, ran⟩ := bind_eq_some_iff.mp ran
  obtain ⟨tree₂, reach₂, same₂, spent₂⟩ := tree₁.descend (by simp) reach₁ ran₂
  cases ran
  obtain ⟨kept, entry⟩ := tree₂.store va reach₂ pte
  refine ⟨kept, ?_, ?_⟩
  · intro other
    rw [entry other, same₂, same₁]
  · change s₁.freeList.length ≤ t.freeList.length + 1 at spent₂
    show s.freeList.length ≤ t.freeList.length + 2
    omega

theorem SystemTree.looksUp (tree : SystemTree root s) (free : 2 ≤ s.freeList.length) (va : Nat) :
    ∃ table k t, pMapLookupEntry root va LARGE_PGSIZE s = some ((table, k), t) := by
  obtain ⟨first, s₁, ran₁⟩ := pMapDescend_ends (fun pg member => (tree.ready pg member).2) (List.length_pos_iff.mp (by omega)) root
    (index va ROOT_PGSHIFT)
  obtain ⟨tree₁, _, _, spent₁⟩ := tree.descend (by simp : ([] : List Nat).length < 2) rfl ran₁
  obtain ⟨second, s₂, ran₂⟩ := pMapDescend_ends (fun pg member => (tree₁.ready pg member).2) (List.length_pos_iff.mp (by omega)) first
    (index va HUGE_PGSHIFT)
  refine ⟨second, index va LARGE_PGSHIFT, s₂, ?_⟩
  unfold pMapLookupEntry
  rw [ran₁]
  show (pMapDescend first _ s₁).bind _ = _
  rw [ran₂]
  rfl

/-- What the rounds `i` to `i + left` of `PMap_SystemLMap` do. -/
structure LargeMapped (root phys virt flags i left : Nat) (s t : Frames) : Prop where
  tree : SystemTree root t
  entries : ∀ k, i ≤ k → k < i + left →
    largeAt t root (add64 virt (largeScaled k)) = largeEntry phys flags k
  others : ∀ va, (∀ k, i ≤ k → k < i + left →
      largePage va ≠ largePage (add64 virt (largeScaled k))) → largeAt t root va = largeAt s root va
  spent : s.freeList.length ≤ t.freeList.length + 2 * left

theorem largeAt_congr {s : Frames} {root va other : Nat} (same : largePage va = largePage other) :
    largeAt s root va = largeAt s root other := by
  obtain ⟨path, last⟩ := largePath_inj.mpr same
  rw [largeAt, largeAt, path, last]

theorem eachLargePage_maps {phys virt flags : Nat} : ∀ left i s t, SystemTree root s →
    eachLargePage root phys virt flags left i s = some t →
    LargeMapped root phys virt flags i left s t := by
  intro left
  induction left with
  | zero =>
    intro i s t tree ran
    cases ran
    exact ⟨tree, fun k low high => absurd high (by omega), fun _ _ => rfl, le_rfl⟩
  | succ left ih =>
    intro i s t tree ran
    obtain ⟨⟨⟨table, k⟩, u⟩, looked, ran⟩ := bind_eq_some_iff.mp ran
    have placed := tree.put looked (largeEntry phys flags i)
    have rest := ih (i + 1) _ t placed.tree ran
    refine ⟨rest.tree, ?_, ?_, ?_⟩
    · intro k low high
      by_cases again : ∃ j, i + 1 ≤ j ∧ j < i + 1 + left ∧
          largePage (add64 virt (largeScaled k)) = largePage (add64 virt (largeScaled j))
      · -- a later round of the same large page writes the same entry
        obtain ⟨j, from_i, until_i, same⟩ := again
        rw [largeAt_congr same, rest.entries j from_i until_i, largeEntry, largeEntry,
          largeScaled_of_page same]
      · have first : k = i := by
          by_contra later
          exact again ⟨k, by omega, by omega, rfl⟩
        rw [rest.others _ (fun j from_i until_i same => again ⟨j, from_i, until_i, same⟩),
          placed.entry, first, if_pos rfl]
    · intro va away
      rw [rest.others va (fun j from_i until_i => away j (by omega) (by omega)), placed.entry,
        if_neg (away i le_rfl (by omega))]
    · have := placed.spent
      have := rest.spent
      omega

theorem eachLargePage_ends {phys virt flags : Nat} : ∀ left i s, SystemTree root s →
    2 * left ≤ s.freeList.length → ∃ t, eachLargePage root phys virt flags left i s = some t := by
  intro left
  induction left with
  | zero => exact fun i s _ _ => ⟨s, rfl⟩
  | succ left ih =>
    intro i s tree free
    obtain ⟨table, k, u, looked⟩ := tree.looksUp (by omega) (add64 virt (largeScaled i))
    have placed := tree.put looked (largeEntry phys flags i)
    have spent := placed.spent
    obtain ⟨t, ran⟩ := ih (i + 1) _ placed.tree (by omega)
    exact ⟨t, bind_eq_some_iff.mpr ⟨_, looked, ran⟩⟩

theorem SystemTree.initTable (tree : SystemTree root s) (empty : s.memory root i = 0)
    (allocated : pMapAllocPageTable s = some (pg, u)) :
    SystemTree root (PMap.store root i (pg * PGSIZE ||| PTE_W ||| PTE_P) u) ∧
      (∀ va, largeAt (PMap.store root i (pg * PGSIZE ||| PTE_W ||| PTE_P) u) root va =
        largeAt s root va) ∧
      (∀ j, j ≠ i → (PMap.store root i (pg * PGSIZE ||| PTE_W ||| PTE_P) u).memory root j =
        s.memory root j) ∧ s.freeList.length = u.freeList.length + 1 := by
  have got := pMapAllocPageTable_allocates allocated
  have spare := got.spare
  have small := (tree.ready pg spare).1
  have entry : pg * PGSIZE ||| PTE_W ||| PTE_P = pg * PGSIZE + 3 := by
    rw [Nat.or_assoc]
    exact or_low (by decide)
  have named : below (pg * PGSIZE ||| PTE_W ||| PTE_P) = some pg := by
    rw [below, entry, if_neg (by omega), tableOf_eq]
    · unfold PGSIZE
      congr 1
      omega
    · unfold word64 PGSIZE
      omega
  obtain ⟨kept, _, same, words⟩ :=
    tree.hang (by simp : ([] : List Nat).length < 2) rfl empty got named
  exact ⟨kept, same, fun j other => words j (Or.inr other), got.length⟩

theorem initTables_tree : ∀ left i s t, SystemTree root s → (∀ j, i ≤ j → s.memory root j = 0) →
    initTables root left i s = some t →
    SystemTree root t ∧ (∀ va, largeAt t root va = largeAt s root va) ∧
      s.freeList.length = t.freeList.length + left := by
  intro left
  induction left with
  | zero =>
    intro i s t tree _ ran
    cases ran
    exact ⟨tree, fun _ => rfl, rfl⟩
  | succ left ih =>
    intro i s t tree empty ran
    obtain ⟨⟨pg, u⟩, allocated, ran⟩ := bind_eq_some_iff.mp ran
    obtain ⟨kept, same, words, spent⟩ := tree.initTable (empty i le_rfl) allocated
    obtain ⟨tree', same', spent'⟩ := ih (i + 1) _ t kept
      (fun j after => (words j (by omega)).trans (empty j (by omega))) ran
    refine ⟨tree', fun va => (same' va).trans (same va), ?_⟩
    change u.freeList.length = _ at spent'
    omega

theorem initTables_ends : ∀ left i s, SystemTree root s → (∀ j, i ≤ j → s.memory root j = 0) →
    left ≤ s.freeList.length → ∃ t, initTables root left i s = some t := by
  intro left
  induction left with
  | zero => exact fun i s _ _ _ => ⟨s, rfl⟩
  | succ left ih =>
    intro i s tree empty free
    obtain ⟨pg, u, allocated⟩ := pMapAllocPageTable_ends (fun pg member => (tree.ready pg member).2)
      (List.length_pos_iff.mp (by omega))
    obtain ⟨kept, _, words, spent⟩ := tree.initTable (empty i le_rfl) allocated
    obtain ⟨t, ran⟩ := ih (i + 1) _ kept
      (fun j after => (words j (by omega)).trans (empty j (by omega)))
      (by change left ≤ u.freeList.length; omega)
    exact ⟨t, bind_eq_some_iff.mpr ⟨_, allocated, ran⟩⟩

/-- The allocator before `PMap_Init`. -/
structure Booting (s : Frames) : Prop where
  nodup : s.freeList.Nodup
  ready : ∀ pg ∈ s.freeList, pg < 2 ^ 40 ∧ s.magic pg = FREEPAGE_MAGIC_FREE ∧ s.refCount pg = 0

theorem Booting.planted (booting : Booting s) (allocated : pMapAllocPageTable s = some (root, t)) :
    SystemTree root t ∧ (∀ j, t.memory root j = 0) ∧ (∀ va, largeAt t root va = 0) ∧
      s.freeList.length = t.freeList.length + 1 := by
  have got := pMapAllocPageTable_allocates allocated
  have blank : ∀ j, t.memory root j = 0 := by
    intro j
    rw [got.memory, Function.update_self]
  have only : ∀ path, path = [] ∨ reach below t.memory root path = none := fun path =>
    reach_blank (fun _ _ _ => trivial) (fun i _ => below_eq_none.mpr (blank i)) path trivial
  obtain ⟨distinct, old⟩ := got.rest booting.nodup
  refine ⟨⟨⟨?_, ?_, ?_⟩, distinct, ?_⟩, blank, ?_, got.length⟩
  · rintro r path i ⟨same, short⟩
    refine ⟨same, ?_⟩
    rw [List.length_append] at short
    omega
  · rintro r path r' path' node ⟨rfl, _⟩ ⟨rfl, _⟩ reached reached'
    rcases only path with rfl | missing
    · rcases only path' with rfl | missing
      · exact ⟨rfl, rfl⟩
      · rw [missing] at reached'
        cases reached'
    · rw [missing] at reached
      cases reached
  · rintro r path node ⟨rfl, _⟩ reached free
    rcases only path with rfl | missing
    · cases reached
      exact (old _ free).2 rfl
    · rw [missing] at reached
      cases reached
  · intro pg free
    obtain ⟨before, apart⟩ := old pg free
    obtain ⟨small, magic, unused⟩ := booting.ready pg before
    refine ⟨small, ?_, ?_⟩
    · show t.memory pg 0 = _
      rw [got.memory, Function.update_of_ne apart]
      exact magic
    · rw [got.refCount, Function.update_of_ne apart]
      exact unused
  · intro va
    unfold largeAt lookup
    rcases only (largePath va) with nil | missing
    · cases nil
    · rw [missing]

end

end BoringOs.PMap
