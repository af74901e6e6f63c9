import BoringOs.Lib.Runs
import BoringOs.PMapTree

/-! Address spaces as maps from pages to entries, which `PMap_Map` and `PMap_AllocMap` change in
their range. -/

namespace BoringOs.PMap

open PAlloc RadixTree Runs Option

variable {flags phys len i n : Nat} {t : Frames} {rel : Nat → Nat → Nat → Prop}

section

variable {roots fixed : List Nat} {s u : Frames} {root table va : Nat}

theorem not_inside_below (va : Nat) (member : root ∈ roots) (apart : ∀ root ∈ roots, root ∉ fixed)
    (i : Nat) : ¬ Inside 3 roots fixed root (pathOf va ++ [i]) := by
  rintro (⟨_, user⟩ | ⟨outside, _⟩)
  · exact absurd user.short (by simp [pathOf])
  · exact apart root member outside

theorem Inv.putEntry (inv : Inv 3 roots fixed s) (rooted : root ∈ roots) (user : va < MEM_USERSPACE_TOP)
    (found : reach child s.memory root (pathOf va) = some table) (pte : Nat) :
    Inv 3 roots fixed (store table (index va PGSHIFT) pte s) ∧
      Kept roots fixed s (store table (index va PGSHIFT) pte s) ∧
      entryAt (store table (index va PGSHIFT) pte s) root va = pte ∧
      ∀ root' ∈ roots, ∀ va' < MEM_USERSPACE_TOP, ¬ (root' = root ∧ va' / PGSIZE = va / PGSIZE) →
        entryAt (store table (index va PGSHIFT) pte s) root' va' = entryAt s root' va' := by
  have path := pathOf_user le_rfl user
  have member : Inside 3 roots fixed root (pathOf va) := Or.inl ⟨rooted, path⟩
  have leaf := not_inside_below va rooted inv.apart
  have same : ∀ page j, page ≠ table ∨ j ≠ index va PGSHIFT →
      (store table (index va PGSHIFT) pte s).memory page j = s.memory page j := by
    intro page j other
    rw [store_memory, if_neg (fun both => other.elim (· both.1) (· both.2))]
  have off : ∀ page j, page ≠ table →
      (store table (index va PGSHIFT) pte s).memory page j = s.memory page j :=
    fun page j other => same page j (Or.inl other)
  have reaches := inv.forest.reach_store member found leaf off
  refine ⟨⟨?_, inv.apart, inv.nodup, ?_, ?_, ?_⟩, ?_, ?_, ?_⟩
  · exact inv.forest.store member found leaf off
  · intro page free
    obtain ⟨small, magic, unused⟩ := inv.ready page free
    have other : page ≠ table := by
      rintro rfl
      exact inv.table_live member found free
    exact ⟨small, (off page 0 other).trans magic, unused⟩
  · intro r rooted' p i node below short reached
    have inner : Inside 3 roots fixed r p := Or.inl ⟨rooted', below.front⟩
    rw [reaches r p inner] at reached
    have other : node ≠ table :=
      inv.table_ne member found inner reached (ne_of_lt short)
    rw [off node i other]
    exact inv.tables r rooted' p i node below short reached
  · intro r p page inner reached
    rw [reaches r p inner] at reached
    exact inv.counts r p page inner reached
  · refine inv.kept_store (index va PGSHIFT) rooted path found ?_ (fun page j _ other => same page j other)
    intro nil
    cases nil
  · unfold entryAt lookup
    rw [reaches root (pathOf va) member, found]
    show (store table (index va PGSHIFT) pte s).memory table _ = pte
    rw [store_memory, if_pos ⟨rfl, rfl⟩]
  · intro root' rooted' va' user' elsewhere
    have inner : Inside 3 roots fixed root' (pathOf va') :=
      Or.inl ⟨rooted', pathOf_user le_rfl user'⟩
    rcases inv.forest.lookup_store 0 member found leaf same inner (index va' PGSHIFT) with
      ⟨rfl, path', last, _⟩ | ⟨_, kept⟩
    · exact absurd ⟨rfl, pathOf_injective user' user path' last⟩ elsewhere
    · exact kept

/-- What is done to the entry of one page: `rel` holds between its old and its new value. -/
structure Put (roots fixed : List Nat) (root va : Nat) (rel : Nat → Nat → Prop) (s t : Frames) :
  Prop where
  inv : Inv 3 roots fixed t
  kept : Kept roots fixed s t
  entry : rel (entryAt s root va) (entryAt t root va)
  others : ∀ root' ∈ roots, ∀ va' < MEM_USERSPACE_TOP, ¬ (root' = root ∧ va' / PGSIZE = va / PGSIZE) →
    entryAt t root' va' = entryAt s root' va'
  spent : s.freeList.length ≤ t.freeList.length + 1

variable {k : Nat}

/-- The entry that `PMap_Map` makes for page `k` of its range. -/
def mapEntry (phys flags k : Nat) : Nat :=
  add64 phys (scaled k) ||| PTE_P ||| PTE_W ||| PTE_U ||| flags

theorem putMap_puts (inv : Inv 3 roots fixed s) (rooted : root ∈ roots)
    (user : va < MEM_USERSPACE_TOP) (found : reach child s.memory root (pathOf va) = some table)
    (ran : putMap phys flags k table (index va PGSHIFT) s = some t) :
    Put roots fixed root va (fun _ new => new = mapEntry phys flags k) s t := by
  cases ran
  obtain ⟨kept, same, entry, others⟩ := inv.putEntry rooted user found (mapEntry phys flags k)
  exact ⟨kept, same, entry, others, Nat.le_succ _⟩

def Filled (old new : Nat) : Prop := if old % 2 = 1 then new = old else new % 2 = 1

theorem or_present (pte flags : Nat) : (pte ||| PTE_P ||| PTE_U ||| flags) % 2 = 1 := by
  rw [← and_present]
  refine Nat.eq_of_testBit_eq fun i => ?_
  simp only [Nat.testBit_and, Nat.testBit_or]
  cases Nat.testBit PTE_P i <;> simp

theorem entryAt_found (found : reach child s.memory root (pathOf va) = some table) :
    entryAt s root va = s.memory table (index va PGSHIFT) := by
  unfold entryAt lookup
  rw [found]

def Allotted (pages : List Nat) (flags old new : Nat) : Prop :=
  if old % 2 = 1 then new = old
  else ∃ pg ∈ pages, new = pg * PGSIZE ||| PTE_P ||| PTE_U ||| flags

theorem Allotted.filled {pages : List Nat} {flags old new : Nat}
    (allotted : Allotted pages flags old new) : Filled old new := by
  unfold Allotted at allotted
  unfold Filled
  split at allotted
  · rename_i present
    rw [if_pos present]
    exact allotted
  · rename_i missing
    obtain ⟨pg, _, rfl⟩ := allotted
    rw [if_neg missing]
    exact or_present _ _

theorem putAlloc_allots (inv : Inv 3 roots fixed s) (rooted : root ∈ roots)
    (user : va < MEM_USERSPACE_TOP) (found : reach child s.memory root (pathOf va) = some table)
    (ran : putAlloc flags k table (index va PGSHIFT) s = some t) :
    Put roots fixed root va (Allotted s.freeList flags) s t := by
  have here := entryAt_found found
  have path := pathOf_user le_rfl user
  have member : Inside 3 roots fixed root (pathOf va) := Or.inl ⟨rooted, path⟩
  unfold putAlloc at ran
  split at ran
  · rename_i missing
    rw [Ne, and_present, ← here] at missing
    obtain ⟨⟨pg, v⟩, allocated, result⟩ := bind_eq_some_iff.mp ran
    have got := pAlloc_AllocPage_allocates allocated
    obtain ⟨taken, _, same, trees⟩ := inv.take got
    cases result
    rw [← trees.reaches root (pathOf va) member] at found
    obtain ⟨kept, same', entry, others⟩ :=
      taken.putEntry rooted user found (pg * PGSIZE ||| PTE_P ||| PTE_U ||| flags)
    refine ⟨kept, same.trans same', ?_, ?_, ?_⟩
    · rw [entry, Allotted, if_neg missing]
      exact ⟨pg, got.spare, rfl⟩
    · intro root' rooted' va' user' elsewhere
      exact (others root' rooted' va' user' elsewhere).trans
        (trees.entryAt le_rfl rooted' user')
    · exact got.length.le
  · rename_i present
    rw [Ne, not_not, and_present, ← here] at present
    cases ran
    refine ⟨inv, Kept.refl _ _ _, ?_, fun _ _ _ _ _ => rfl, Nat.le_succ _⟩
    rw [Allotted, if_pos present]

theorem putAlloc_puts (inv : Inv 3 roots fixed s) (rooted : root ∈ roots)
    (user : va < MEM_USERSPACE_TOP) (found : reach child s.memory root (pathOf va) = some table)
    (ran : putAlloc flags k table (index va PGSHIFT) s = some t) :
    Put roots fixed root va Filled s t := by
  have put := putAlloc_allots inv rooted user found ran
  exact ⟨put.inv, put.kept, put.entry.filled, put.others, put.spent⟩

/-- What the loop over the pages `i` to `i + left` of a range does. -/
structure Mapped (roots fixed : List Nat) (root virt i left : Nat) (rel : Nat → Nat → Nat → Prop)
  (s t : Frames) : Prop where
  inv : Inv 3 roots fixed t
  kept : Kept roots fixed s t
  entries : ∀ k, i ≤ k → k < i + left →
    rel k (entryAt s root (virt + k * PGSIZE)) (entryAt t root (virt + k * PGSIZE))
  others : ∀ root' ∈ roots, ∀ va' < MEM_USERSPACE_TOP,
    (root' = root → ∀ k, i ≤ k → k < i + left → va' / PGSIZE ≠ (virt + k * PGSIZE) / PGSIZE) →
    entryAt t root' va' = entryAt s root' va'

theorem page_of (virt k : Nat) : (virt + k * PGSIZE) / PGSIZE = virt / PGSIZE + k :=
  Nat.add_mul_div_right _ _ (by decide)

theorem address_of {virt k pages : Nat} (few : k < 2 ^ 19) (inner : k < pages)
    (below : virt + pages * PGSIZE ≤ MEM_USERSPACE_TOP) :
    add64 virt (scaled k) = virt + k * PGSIZE ∧ virt + k * PGSIZE < MEM_USERSPACE_TOP := by
  have inside : virt + k * PGSIZE < MEM_USERSPACE_TOP := by
    unfold PGSIZE at *
    omega
  rw [scaled_of_lt few]
  refine ⟨add64_of_lt ?_, inside⟩
  unfold MEM_USERSPACE_TOP at inside
  unfold word64
  omega

variable {put : Nat → Nat → Nat → Frames → Option Frames} {virt : Nat}

theorem eachPage_maps (rooted : root ∈ roots)
    (puts : ∀ k s t table, Inv 3 roots fixed s → virt + k * PGSIZE < MEM_USERSPACE_TOP →
      reach child s.memory root (pathOf (virt + k * PGSIZE)) = some table →
      put k table (index (virt + k * PGSIZE) PGSHIFT) s = some t →
      Put roots fixed root (virt + k * PGSIZE) (rel k) s t) :
    ∀ left i s t, i + left ≤ 2 ^ 19 → virt + (i + left) * PGSIZE ≤ MEM_USERSPACE_TOP →
      Inv 3 roots fixed s → eachPage root virt put left i s = some t →
      Mapped roots fixed root virt i left rel s t := by
  intro left
  induction left with
  | zero =>
    intro i s t _ _ inv ran
    cases ran
    exact ⟨inv, Kept.refl _ _ _, fun k low high => absurd high (by omega), fun _ _ _ _ _ => rfl⟩
  | succ left ih =>
    intro i s t few below inv ran
    have sum : i + (left + 1) = i + 1 + left := by omega
    rw [sum] at few below
    obtain ⟨address, user⟩ := address_of (k := i) (by omega) (by omega) below
    obtain ⟨⟨⟨table, l⟩, v⟩, looked, ran⟩ := bind_eq_some_iff.mp ran
    rw [address] at looked
    obtain ⟨walked, found, rfl⟩ := inv.lookupEntry le_rfl rooted user looked
    obtain ⟨w, stored, ran⟩ := bind_eq_some_iff.mp ran
    have placed := puts i v w table walked.inv user found stored
    have rest := ih (i + 1) w t few below placed.inv ran
    -- the other pages of the range are left alone by this one
    have others : ∀ root' ∈ roots, ∀ va' < MEM_USERSPACE_TOP,
        ¬ (root' = root ∧ va' / PGSIZE = (virt + i * PGSIZE) / PGSIZE) →
        entryAt w root' va' = entryAt s root' va' := by
      intro root' rooted' va' user' elsewhere
      exact (placed.others root' rooted' va' user' elsewhere).trans
        (walked.entries root' rooted' va' user')
    refine ⟨rest.inv, (walked.kept.trans placed.kept).trans rest.kept, ?_, ?_⟩
    · intro k low high
      rcases eq_or_lt_of_le low with rfl | later
      · have kept := rest.others root rooted _ user (by
          intro _ k low _
          rw [page_of, page_of]
          omega)
        rw [kept, ← walked.entries root rooted _ user]
        exact placed.entry
      · have inside : virt + k * PGSIZE < MEM_USERSPACE_TOP :=
          (address_of (by omega) (by omega) below).2
        have kept := others root rooted _ inside (by
          rw [page_of, page_of]
          omega)
        rw [← kept]
        exact rest.entries k later (by omega)
    · intro root' rooted' va' user' elsewhere
      have later := rest.others root' rooted' va' user'
        (fun same k low high => elsewhere same k (by omega) (by omega))
      rw [later]
      refine others root' rooted' va' user' ?_
      rintro ⟨same, page⟩
      exact elsewhere same i le_rfl (by omega) page

theorem eachPage_ends (rooted : root ∈ roots)
    (puts : ∀ k s t table, Inv 3 roots fixed s → virt + k * PGSIZE < MEM_USERSPACE_TOP →
      reach child s.memory root (pathOf (virt + k * PGSIZE)) = some table →
      put k table (index (virt + k * PGSIZE) PGSHIFT) s = some t →
      Put roots fixed root (virt + k * PGSIZE) (rel k) s t)
    (ends : ∀ k s table l, Inv 3 roots fixed s → s.freeList ≠ [] → ∃ t, put k table l s = some t) :
    ∀ left i s, i + left ≤ 2 ^ 19 → virt + (i + left) * PGSIZE ≤ MEM_USERSPACE_TOP →
      Inv 3 roots fixed s → 4 * left ≤ s.freeList.length →
      ∃ t, eachPage root virt put left i s = some t := by
  intro left
  induction left with
  | zero => exact fun i s _ _ _ _ => ⟨s, rfl⟩
  | succ left ih =>
    intro i s few below inv free
    have sum : i + (left + 1) = i + 1 + left := by omega
    rw [sum] at few below
    obtain ⟨address, user⟩ := address_of (k := i) (by omega) (by omega) below
    obtain ⟨⟨table, l⟩, v, looked⟩ := inv.looksUp le_rfl rooted user (by omega)
    obtain ⟨walked, found, rfl⟩ := inv.lookupEntry le_rfl rooted user looked
    have spent := walked.spent
    obtain ⟨w, stored⟩ := ends i v table (index (virt + i * PGSIZE) PGSHIFT) walked.inv
      (List.length_pos_iff.mp (by omega))
    have placed := puts i v w table walked.inv user found stored
    have spent' := placed.spent
    obtain ⟨t, ran⟩ := ih (i + 1) w few below placed.inv (by omega)
    refine ⟨t, ?_⟩
    rw [eachPage, address, looked]
    show (put i table _ v).bind _ = _
    rw [stored]
    exact ran

theorem putAlloc_ends {flags k l : Nat} (inv : Inv 3 roots fixed s) (free : s.freeList ≠ []) :
    ∃ t, putAlloc flags k table l s = some t := by
  unfold putAlloc
  split
  · obtain ⟨pg, t, allocated⟩ := pAlloc_AllocPage_ends (fun pg member => (inv.ready pg member).2) free
    rw [allocated]
    exact ⟨_, rfl⟩
  · exact ⟨s, rfl⟩

theorem tableEntry_small (page : Nat) : tableEntry page &&& PTE_PS ≠ PTE_PS := by
  have bit : (tableEntry page).testBit 7 = false := by
    rw [tableEntry_eq, Nat.testBit_eq_decide_div_mod_eq]
    unfold PGSIZE
    simp
    omega
  intro set
  have := congrArg (Nat.testBit · 7) set
  simp only [Nat.testBit_and, bit, Bool.false_and, PTE_PS] at this
  exact absurd this (by decide)

theorem Inv.translate (inv : Inv 3 roots fixed s) (rooted : root ∈ roots)
    (user : va < MEM_USERSPACE_TOP) (mapped : entryAt s root va ≠ 0) :
    pMap_Translate root va s = some ((entryAt s root va &&& FRAMEMASK) + (va &&& PGMASK)) := by
  obtain ⟨first, second, whole⟩ := pathOf_fronts le_rfl user
  -- one level: an entry on the way to a table is the entry of that table
  have level : ∀ path i table next, UserPath 3 (path ++ [i]) → path.length < 3 →
      reach child s.memory root path = some table → child (s.memory table i) = some next →
      s.memory table i ≠ 0 ∧ tableOf (s.memory table i) = next ∧
        s.memory table i &&& PTE_PS ≠ PTE_PS := by
    intro path i table next below short found reached
    rcases inv.tables root rooted path i table below short found with zero | ⟨page, small, entry⟩
    · rw [zero] at reached
      cases reached
    · rw [entry, child_tableEntry small] at reached
      cases reached
      rw [entry, tableOf_tableEntry small]
      exact ⟨tableEntry_ne_zero _, rfl, tableEntry_small _⟩
  cases reached : reach child s.memory root (pathOf va) with
  | none =>
    refine absurd ?_ mapped
    unfold entryAt lookup
    rw [reached]
  | some table₃ =>
    rw [entryAt_found reached]
    obtain ⟨table₁, child₁, rest₁⟩ := bind_eq_some_iff.mp reached
    obtain ⟨table₂, child₂, rest₂⟩ := bind_eq_some_iff.mp rest₁
    obtain ⟨table, child₃, rest₃⟩ := bind_eq_some_iff.mp rest₂
    obtain rfl : table = table₃ := some.inj rest₃
    have reach₁ : reach child s.memory root [index va ROOT_PGSHIFT] = some table₁ := by
      simp [reach, child₁]
    have reach₂ : reach child s.memory root [index va ROOT_PGSHIFT, index va HUGE_PGSHIFT] =
        some table₂ := by
      simp [reach, child₁, child₂]
    obtain ⟨full₁, next₁, _⟩ := level [] _ _ _ first (by simp) rfl child₁
    obtain ⟨full₂, next₂, _⟩ := level [_] _ _ _ second (by simp) reach₁ child₂
    obtain ⟨full₃, next₃, small₃⟩ := level [_, _] _ _ _ whole (by simp) reach₂ child₃
    unfold pMap_Translate
    simp only [full₁, next₁, full₂, next₂, full₃, next₃, small₃, ↓reduceIte]

end

/-- The root table of the system, the tables below it that `PMap_Init` has made, and, for every
address space, the page of its `AS` and its root table. -/
structure Kernel where
  frames : Frames
  systemRoot : Nat
  systemTables : List Nat
  spaces : List (Nat × Nat)

def Kernel.roots (k : Kernel) : List Nat := k.spaces.map Prod.snd

def Kernel.fixed (k : Kernel) : List Nat :=
  k.spaces.map Prod.fst ++ k.systemRoot :: k.systemTables

inductive Call where
  | newAS
  | map (root phys virt pages flags : Nat)
  | allocMap (root virt len flags : Nat)

def apply (k : Kernel) : Call → Option Kernel
  | .newAS =>
    (pMap_NewAS k.systemRoot k.frames).map fun (space, frames) =>
      { k with frames := frames, spaces := space :: k.spaces }
  | .map root phys virt pages flags =>
    if root ∈ k.roots then
      (pMap_Map root phys virt pages flags k.frames).map fun frames => { k with frames := frames }
    else none
  | .allocMap root virt len flags =>
    if root ∈ k.roots then
      (pMap_AllocMap root virt len flags k.frames).map fun frames => { k with frames := frames }
    else none

structure UserRange (virt pages : Nat) : Prop where
  aligned : virt % PGSIZE = 0
  few : pages < 2 ^ 19
  below : virt + pages * PGSIZE ≤ MEM_USERSPACE_TOP

def pagesOf (len : Nat) : Nat := (len + PGSIZE - 1) / PGSIZE

def Allowed : Call → Prop
  | .newAS => True
  | .map _ _ virt pages _ => UserRange virt pages
  | .allocMap _ virt len _ => UserRange virt (pagesOf len)

def Step (k : Kernel) (call : Call) (k' : Kernel) : Prop := Allowed call ∧ apply k call = some k'

/-- The kernel after `PMap_Init`, with any free pages. -/
structure Started (k : Kernel) : Prop where
  spaces : k.spaces = []
  nodup : k.frames.freeList.Nodup
  ready : ∀ pg ∈ k.frames.freeList,
    pg < 2 ^ 40 ∧ k.frames.magic pg = FREEPAGE_MAGIC_FREE ∧ k.frames.refCount pg = 0
  system : ∀ pg ∈ k.systemRoot :: k.systemTables,
    pg ∉ k.frames.freeList ∧ k.frames.refCount pg = 1

theorem Started.inv {k : Kernel} (started : Started k) (depth : Nat) :
    Inv depth k.roots k.fixed k.frames := by
  have roots : k.roots = [] := by
    rw [Kernel.roots, started.spaces]
    rfl
  have fixed : k.fixed = k.systemRoot :: k.systemTables := by
    rw [Kernel.fixed, started.spaces]
    rfl
  rw [roots, fixed]
  have only : ∀ root path node, Inside depth [] (k.systemRoot :: k.systemTables) root path →
      reach child k.frames.memory root path = some node →
      node = root ∧ path = [] ∧ root ∈ k.systemRoot :: k.systemTables := by
    rintro root path node (⟨member, _⟩ | ⟨member, rfl⟩) reached
    · cases member
    · cases reached
      exact ⟨rfl, rfl, member⟩
  refine ⟨⟨?_, ?_, ?_⟩, nofun, started.nodup, started.ready, nofun, ?_⟩
  · rintro root path i (⟨member, _⟩ | ⟨_, nil⟩)
    · cases member
    · simp at nil
  · intro r p r' p' node first second reached reached'
    obtain ⟨rfl, rfl, _⟩ := only _ _ _ first reached
    obtain ⟨rfl, rfl, _⟩ := only _ _ _ second reached'
    exact ⟨rfl, rfl⟩
  · intro root path node member reached
    obtain ⟨rfl, _, system⟩ := only _ _ _ member reached
    exact (started.system node system).1
  · intro root path page member reached
    obtain ⟨rfl, _, system⟩ := only _ _ _ member reached
    exact (started.system page system).2

theorem Kernel.system_fixed (k : Kernel) : k.systemRoot ∈ k.fixed :=
  List.mem_append_right _ List.mem_cons_self

section

variable {k k' : Kernel} {root virt pages : Nat}

theorem passes_of (range : UserRange virt pages) : passes pages = pages :=
  min_eq_left (by have := range.few; omega)

theorem pagesOf_eq (range : UserRange virt (pagesOf len)) :
    add64 len (PGSIZE - 1) / PGSIZE = pagesOf len := by
  have few := range.few
  unfold pagesOf PGSIZE at few ⊢
  rw [add64_of_lt]
  · rfl
  · unfold word64
    omega

section

variable (inv : Inv 3 k.roots k.fixed k.frames)
include inv

theorem Inv.map (rooted : root ∈ k.roots) (range : UserRange virt pages)
    (ran : pMap_Map root phys virt pages flags k.frames = some t) :
    Mapped k.roots k.fixed root virt 0 pages (fun i _ new => new = mapEntry phys flags i) k.frames t := by
  rw [pMap_Map, passes_of range] at ran
  exact eachPage_maps rooted
    (fun i s t table inv user found ran => putMap_puts inv rooted user found ran)
    pages 0 _ _ (by have := range.few; omega) (by rw [zero_add]; exact range.below) inv ran

theorem Inv.allocMap (rooted : root ∈ k.roots) (range : UserRange virt (pagesOf len))
    (ran : pMap_AllocMap root virt len flags k.frames = some t) :
    Mapped k.roots k.fixed root virt 0 (pagesOf len) (fun _ => Filled) k.frames t := by
  unfold pMap_AllocMap at ran
  dsimp only at ran
  rw [pagesOf_eq range, passes_of range] at ran
  split at ran
  · exact eachPage_maps rooted
      (fun i s t table inv user found ran => putAlloc_puts inv rooted user found ran)
      (pagesOf len) 0 _ _ (by have := range.few; omega) (by rw [zero_add]; exact range.below) inv ran
  · cases ran

theorem Inv.step {call : Call} (moved : Step k call k') : Inv 3 k'.roots k'.fixed k'.frames := by
  obtain ⟨allowed, ran⟩ := moved
  cases call with
  | newAS =>
    obtain ⟨⟨⟨as, root⟩, frames⟩, created, result⟩ := map_eq_some_iff.mp ran
    cases result
    exact (inv.newAS le_rfl k.system_fixed created).inv
  | map root phys virt pages flags =>
    simp only [apply] at ran
    split at ran
    · rename_i rooted
      obtain ⟨frames, mapped, result⟩ := map_eq_some_iff.mp ran
      cases result
      exact (inv.map rooted allowed mapped).inv
    · cases ran
  | allocMap root virt len flags =>
    simp only [apply] at ran
    split at ran
    · rename_i rooted
      obtain ⟨frames, mapped, result⟩ := map_eq_some_iff.mp ran
      cases result
      exact (inv.allocMap rooted allowed mapped).inv
    · cases ran

end

end

/-- Flags in the low 12 bits other than `PTE_PS`, and `PTE_NX`. -/
def MapFlags (flags : Nat) : Prop :=
  ∃ low < PGSIZE, low &&& PTE_PS = 0 ∧ (flags = low ∨ flags = low ||| PTE_NX)

theorem and_framemask {value : Nat} (small : value < 2 ^ 63) :
    value &&& FRAMEMASK = value / 4096 * 4096 := by
  have mask : FRAMEMASK = (2 ^ 51 - 1) <<< 12 := by decide
  rw [mask]
  exact and_high_mask small

theorem mapEntry_frame (aligned : phys % PGSIZE = 0) (small : phys < 2 ^ 51)
    (few : i < 2 ^ 19) (plain : MapFlags flags) :
    mapEntry phys flags i &&& FRAMEMASK = phys + i * PGSIZE ∧ mapEntry phys flags i ≠ 0 := by
  have sum : add64 phys (scaled i) = phys + i * PGSIZE := by
    rw [scaled_of_lt few]
    refine add64_of_lt ?_
    unfold word64 PGSIZE
    omega
  have frame : (phys + i * PGSIZE) &&& FRAMEMASK = phys + i * PGSIZE := by
    unfold PGSIZE at aligned ⊢
    rw [and_framemask (by omega)]
    omega
  have none : flags &&& FRAMEMASK = 0 := by
    obtain ⟨low, short, _, rfl | rfl⟩ := plain
    · unfold PGSIZE at short
      rw [and_framemask (by omega)]
      omega
    · unfold PGSIZE at short
      rw [Nat.and_or_distrib_right, and_framemask (by omega), show low / 4096 = 0 by omega]
      decide
  have present : mapEntry phys flags i % 2 = 1 := by
    have := or_present (add64 phys (scaled i)) (PTE_W ||| flags)
    rwa [show add64 phys (scaled i) ||| PTE_P ||| PTE_U ||| (PTE_W ||| flags) =
      mapEntry phys flags i by unfold mapEntry; ac_rfl] at this
  refine ⟨?_, by omega⟩
  unfold mapEntry
  rw [sum, Nat.and_or_distrib_right, Nat.and_or_distrib_right, Nat.and_or_distrib_right,
    Nat.and_or_distrib_right, frame, none]
  simp [PTE_P, PTE_W, PTE_U, FRAMEMASK]

/-- `va` is mapped in the address space. -/
def Present (k : Kernel) (root va : Nat) : Prop := entryAt k.frames root va &&& PTE_P = PTE_P

section

variable {k : Kernel} {root virt pages va : Nat}

theorem translate_kept (inv : Inv 3 k.roots k.fixed k.frames) (after : Inv 3 k.roots k.fixed t)
    (rooted : root ∈ k.roots) (user : va < MEM_USERSPACE_TOP) (present : Present k root va)
    (same : entryAt t root va = entryAt k.frames root va) :
    pMap_Translate root va t = pMap_Translate root va k.frames := by
  have full : entryAt k.frames root va ≠ 0 := by
    intro zero
    rw [Present, zero] at present
    exact absurd present (by decide)
  rw [inv.translate rooted user full, after.translate rooted user (same ▸ full), same]

theorem page_in_range (range : UserRange virt pages) :
    (virt ≤ va ∧ va < virt + pages * PGSIZE) ↔ ∃ i < pages, va / PGSIZE = (virt + i * PGSIZE) / PGSIZE := by
  have aligned := range.aligned
  constructor
  · rintro ⟨low, high⟩
    refine ⟨va / PGSIZE - virt / PGSIZE, ?_, ?_⟩
    · unfold PGSIZE at *
      omega
    · rw [page_of]
      unfold PGSIZE at *
      omega
  · rintro ⟨i, few, page⟩
    rw [page_of] at page
    unfold PGSIZE at *
    omega

section

variable (mapped : Mapped k.roots k.fixed root virt 0 pages rel k.frames t)
include mapped

theorem Mapped.outside (rooted : root ∈ k.roots)
    (range : UserRange virt pages) (user : va < MEM_USERSPACE_TOP)
    (outside : ¬ (virt ≤ va ∧ va < virt + pages * PGSIZE)) :
    entryAt t root va = entryAt k.frames root va := by
  refine mapped.others root rooted va user ?_
  intro _ i _ few page
  exact outside ((page_in_range range).mpr ⟨i, by omega, page⟩)

theorem Mapped.inside
    (range : UserRange virt pages) (inside : virt ≤ va ∧ va < virt + pages * PGSIZE) :
    ∃ i < pages, va / PGSIZE = (virt + i * PGSIZE) / PGSIZE ∧
      rel i (entryAt k.frames root va) (entryAt t root va) := by
  obtain ⟨i, few, page⟩ := (page_in_range range).mp inside
  refine ⟨i, few, page, ?_⟩
  rw [entryAt_congr page, entryAt_congr page]
  exact mapped.entries i (Nat.zero_le i) (by omega)

end

section

variable (inv : Inv 3 k.roots k.fixed k.frames)
include inv

theorem Inv.map_translates (rooted : root ∈ k.roots)
    (range : UserRange virt pages) (aligned : phys % PGSIZE = 0)
    (small : phys < 2 ^ 51) (plain : MapFlags flags)
    (ran : pMap_Map root phys virt pages flags k.frames = some t) {i o : Nat} (few : i < pages)
    (short : o < PGSIZE) :
    pMap_Translate root (virt + i * PGSIZE + o) t = some (phys + i * PGSIZE + o) := by
  have mapped := inv.map rooted range ran
  have start := range.aligned
  have below := range.below
  have user : virt + i * PGSIZE + o < MEM_USERSPACE_TOP := by
    unfold PGSIZE at *
    omega
  have page : (virt + i * PGSIZE + o) / PGSIZE = (virt + i * PGSIZE) / PGSIZE := by
    unfold PGSIZE at *
    omega
  have entry : entryAt t root (virt + i * PGSIZE + o) = mapEntry phys flags i := by
    rw [entryAt_congr page]
    exact mapped.entries i (Nat.zero_le i) (by omega)
  obtain ⟨frame, full⟩ := mapEntry_frame aligned small (Nat.lt_trans few range.few) plain
  have offset : (virt + i * PGSIZE + o) &&& PGMASK = o := by
    have : (virt + i * PGSIZE + o) &&& PGMASK = (virt + i * PGSIZE + o) % 2 ^ 12 :=
      Nat.and_two_pow_sub_one_eq_mod _ 12
    rw [this]
    unfold PGSIZE at *
    omega
  rw [mapped.inv.translate rooted user (entry ▸ full), entry, frame, offset]

theorem Inv.map_ends (rooted : root ∈ k.roots)
    (phys flags : Nat) (range : UserRange virt pages) (free : 4 * pages ≤ k.frames.freeList.length) :
    ∃ t, pMap_Map root phys virt pages flags k.frames = some t := by
  rw [pMap_Map, passes_of range]
  exact eachPage_ends rooted
    (fun i s t table inv user found ran => putMap_puts (k := i) inv rooted user found ran)
    (fun _ _ _ _ _ _ => ⟨_, rfl⟩) pages 0 _ (by have := range.few; omega)
    (by rw [zero_add]; exact range.below) inv free

theorem Inv.allocMap_ends (rooted : root ∈ k.roots)
    (flags : Nat) (range : UserRange virt (pagesOf len))
    (free : 4 * pagesOf len ≤ k.frames.freeList.length) :
    ∃ t, pMap_AllocMap root virt len flags k.frames = some t := by
  have aligned : virt &&& PGMASK = 0 := by
    have : virt &&& PGMASK = virt % 2 ^ 12 := Nat.and_two_pow_sub_one_eq_mod _ 12
    rw [this]
    exact range.aligned
  unfold pMap_AllocMap
  dsimp only
  rw [pagesOf_eq range, passes_of range, if_pos aligned]
  exact eachPage_ends rooted
    (fun i s t table inv user found ran => putAlloc_puts (k := i) inv rooted user found ran)
    (fun _ _ _ _ inv free => putAlloc_ends inv free) (pagesOf len) 0 _
    (by have := range.few; omega) (by rw [zero_add]; exact range.below) inv free

end

end

/-- In every address space that the calls have built: `PMap_Map` makes every address of its range
translate to the physical address it is given; `PMap_AllocMap` keeps what is mapped and maps the
rest of its range; both leave the other mapped addresses alone, and with four free pages for each
page of the range they succeed. -/
theorem pmap_maps {start k : Kernel} (started : Started start) {calls : List Call}
    (ran : Run Step start calls k) {root : Nat} (live : root ∈ k.roots) :
    (∀ phys virt pages flags, UserRange virt pages → phys % PGSIZE = 0 → phys < 2 ^ 51 →
      MapFlags flags →
      (4 * pages ≤ k.frames.freeList.length →
        (apply k (.map root phys virt pages flags)).isSome) ∧
      ∀ k', apply k (.map root phys virt pages flags) = some k' →
        (∀ i < pages, ∀ o < PGSIZE, pMap_Translate root (virt + i * PGSIZE + o) k'.frames =
          some (phys + i * PGSIZE + o)) ∧
        ∀ va < MEM_USERSPACE_TOP, ¬ (virt ≤ va ∧ va < virt + pages * PGSIZE) → Present k root va →
          pMap_Translate root va k'.frames = pMap_Translate root va k.frames) ∧
    (∀ virt len flags, UserRange virt (pagesOf len) →
      (4 * pagesOf len ≤ k.frames.freeList.length →
        (apply k (.allocMap root virt len flags)).isSome) ∧
      ∀ k', apply k (.allocMap root virt len flags) = some k' →
        (∀ va, virt ≤ va → va < virt + len → Present k' root va) ∧
        ∀ va < MEM_USERSPACE_TOP, Present k root va →
          pMap_Translate root va k'.frames = pMap_Translate root va k.frames) := by
  have inv : Inv 3 k.roots k.fixed k.frames :=
    Run.invariant (fun k => Inv 3 k.roots k.fixed k.frames) (fun _ _ _ inv moved => inv.step moved)
      ran (started.inv 3)
  refine ⟨?_, ?_⟩
  · intro phys virt pages flags range aligned small plain
    simp only [apply, if_pos live]
    refine ⟨fun free => ?_, ?_⟩
    · obtain ⟨t, ends⟩ := inv.map_ends live phys flags range free
      rw [ends]
      rfl
    · intro k' result
      obtain ⟨t, mapped, rfl⟩ := map_eq_some_iff.mp result
      refine ⟨fun i few o short => inv.map_translates live range aligned small plain mapped few short, ?_⟩
      intro va user outside present
      have changed := inv.map live range mapped
      exact translate_kept inv changed.inv live user present (changed.outside live range user outside)
  · intro virt len flags range
    simp only [apply, if_pos live]
    refine ⟨fun free => ?_, ?_⟩
    · obtain ⟨t, ends⟩ := inv.allocMap_ends live flags range free
      rw [ends]
      rfl
    · intro k' result
      obtain ⟨t, mapped, rfl⟩ := map_eq_some_iff.mp result
      have filled := inv.allocMap live range mapped
      refine ⟨?_, ?_⟩
      · intro va low high
        have inside : virt ≤ va ∧ va < virt + pagesOf len * PGSIZE := by
          unfold pagesOf PGSIZE
          omega
        obtain ⟨i, _, _, entry⟩ := filled.inside range inside
        rw [Present, and_present]
        show entryAt t root va % 2 = 1
        unfold Filled at entry
        split at entry
        · rename_i odd
          rw [entry]
          exact odd
        · exact entry
      · intro va user present
        refine translate_kept inv filled.inv live user present ?_
        by_cases inside : virt ≤ va ∧ va < virt + pagesOf len * PGSIZE
        · obtain ⟨i, _, _, entry⟩ := filled.inside range inside
          rw [Present, and_present] at present
          rwa [Filled, if_pos present] at entry
        · exact filled.outside live range user inside

def plainKernel (n : Nat) : Kernel where
  frames :=
    { freeList := List.range' 1 n
      freePages := n
      totalPages := n
      refCount := fun pg => if pg = 0 then 1 else 0
      memory := fun pg i => if pg ≠ 0 ∧ i = 0 then FREEPAGE_MAGIC_FREE else 0 }
  systemRoot := 0
  systemTables := []
  spaces := []

theorem plainKernel_free {n pg : Nat} (free : pg ∈ (plainKernel n).frames.freeList) :
    1 ≤ pg ∧ pg < 1 + n := by
  simpa [plainKernel, List.mem_range'_1] using free

theorem plainKernel_started (few : n < 2 ^ 40) : Started (plainKernel n) := by
  refine ⟨rfl, List.nodup_range', ?_, ?_⟩
  · intro pg free
    have positive := plainKernel_free free
    refine ⟨by omega, ?_, ?_⟩
    · exact if_pos ⟨by omega, rfl⟩
    · exact if_neg (by omega)
  · intro pg member
    obtain rfl : pg = 0 := List.mem_singleton.mp member
    refine ⟨fun free => ?_, rfl⟩
    have := plainKernel_free free
    omega

def twentyPages : Kernel where
  frames :=
    { freeList := List.range' 1 20
      freePages := 20
      totalPages := 20
      refCount := fun pg => if pg = 0 then 1 else 0
      memory := fun pg i => if pg ≠ 0 ∧ i = 0 then FREEPAGE_MAGIC_FREE else 0 }
  systemRoot := 0
  systemTables := []
  spaces := []

theorem twentyPages_started : Started twentyPages := plainKernel_started (show 20 < 2 ^ 40 by decide)

theorem pmap_maps_first_page :
    ∃ k k', Run Step twentyPages [.newAS] k ∧ apply k (.map 2 0x5000 0x400000 1 0) = some k' ∧
      pMap_Translate 2 0x400123 k'.frames = some 0x5123 := by
  obtain ⟨k, created, live, free⟩ : ∃ k, apply twentyPages .newAS = some k ∧ 2 ∈ k.roots ∧
      4 * 1 ≤ k.frames.freeList.length := ⟨_, rfl, by decide, by decide⟩
  have ran : Run Step twentyPages [.newAS] k := Run.single ⟨trivial, created⟩
  obtain ⟨ends, maps⟩ := (pmap_maps twentyPages_started ran live).1 0x5000 0x400000 1 0
    ⟨by decide, by decide, by decide⟩ (by decide) (by decide) ⟨0, by decide, by decide, Or.inl rfl⟩
  obtain ⟨k', mapped⟩ := isSome_iff_exists.mp (ends free)
  exact ⟨k, k', ran, mapped, (maps k' mapped).1 0 (by decide) 0x123 (by decide)⟩

end BoringOs.PMap
