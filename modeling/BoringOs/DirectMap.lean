import BoringOs.SystemMap

/-! What `PMap_Init` maps: the `int` product `LARGE_PGSIZE * i` wraps after 1024 rounds. -/

namespace BoringOs.PMap

open PAlloc RadixTree Option Nat

section

variable {root va pa : Nat} {s t : Frames}

theorem translate_unmapped (zero : largeAt s root va = 0) : pMap_Translate root va s = none := by
  unfold largeAt lookup largePath at zero
  unfold pMap_Translate
  dsimp only
  simp only [reach, below] at zero
  split
  · rfl
  · next first =>
      rw [if_neg first] at zero
      simp only [bind_some] at zero
      split
      · rfl
      · next second =>
          rw [if_neg second] at zero
          simp only [bind_some] at zero
          rw [zero]
          rfl

theorem translate_large {pte : Nat} (entry : largeAt s root va = pte) (present : pte ≠ 0)
    (large : pte &&& PTE_PS = PTE_PS) :
    pMap_Translate root va s = some ((pte &&& LARGE_FRAMEMASK) + (va &&& LARGE_PGMASK)) := by
  unfold largeAt lookup largePath at entry
  unfold pMap_Translate
  dsimp only
  simp only [reach, below] at entry
  split
  · next first =>
      rw [if_pos first] at entry
      exact absurd entry.symm present
  · next first =>
      rw [if_neg first] at entry
      simp only [bind_some] at entry
      split
      · next second =>
          rw [if_pos second] at entry
          exact absurd entry.symm present
      · next second =>
          rw [if_neg second] at entry
          simp only [bind_some] at entry
          rw [entry, if_pos large]

theorem large_entry_eq (page : Nat) :
    page * 2 ^ 21 ||| PTE_P ||| PTE_W ||| PTE_PS ||| 0 = page * 2 ^ 21 + 0x83 := by
  rw [Nat.or_assoc, Nat.or_assoc, Nat.or_assoc, mul_comm]
  exact (two_pow_add_eq_or_of_lt (by decide : 0x83 < 2 ^ 21) page).symm

theorem translate_direct (small : pa < 2 ^ 36) (entry : largeAt s root (MEM_DIRECTMAP_BASE + pa) =
      pa / 2 ^ 21 * 2 ^ 21 ||| PTE_P ||| PTE_W ||| PTE_PS ||| 0) :
    pMap_Translate root (MEM_DIRECTMAP_BASE + pa) s = some pa := by
  rw [large_entry_eq] at entry
  have large : (pa / 2 ^ 21 * 2 ^ 21 + 0x83) &&& PTE_PS = PTE_PS := by
    have bit : (pa / 2 ^ 21 * 2 ^ 21 + 0x83).testBit 7 = true := by
      rw [testBit_eq_decide_div_mod_eq, decide_eq_true_iff]
      omega
    have mask : PTE_PS = 2 ^ 7 := by decide
    rw [mask, and_two_pow, bit]
    rfl
  have frame : (pa / 2 ^ 21 * 2 ^ 21 + 0x83) &&& LARGE_FRAMEMASK = pa / 2 ^ 21 * 2 ^ 21 := by
    have mask : LARGE_FRAMEMASK = (2 ^ 42 - 1) <<< 21 := by decide
    rw [mask, and_high_mask (by omega)]
    omega
  have offset : (MEM_DIRECTMAP_BASE + pa) &&& LARGE_PGMASK = pa % 2 ^ 21 := by
    have mask : LARGE_PGMASK = 2 ^ 21 - 1 := by decide
    rw [mask, and_two_pow_sub_one_eq_mod]
    unfold MEM_DIRECTMAP_BASE
    omega
  rw [translate_large entry (by omega) large, frame, offset]
  congr 1
  omega

end

/-- The large page that the direct map starts with. -/
def firstPage : Nat := 2 ^ 26

theorem largePage_direct (start k : Nat) :
    largePage (add64 (add64 MEM_DIRECTMAP_BASE (start * 2 ^ 21)) (largeScaled k)) =
      (firstPage + start + largeShift k) % 2 ^ 27 := by
  rw [largePage_round]
  unfold add64 word64 MEM_DIRECTMAP_BASE firstPage
  omega

theorem largeEntry_direct (start : Nat) {k page : Nat} (small : page < 2 ^ 15)
    (shift : (start + largeShift k) % 2 ^ 43 = page) :
    largeEntry (start * 2 ^ 21) 0 k = page * 2 ^ 21 ||| PTE_P ||| PTE_W ||| PTE_PS ||| 0 := by
  have address : add64 (start * 2 ^ 21) (largeScaled k) = page * 2 ^ 21 := by
    rw [largeScaled_eq]
    unfold add64 word64
    omega
  rw [largeEntry, address]

section

variable {root : Nat} {s t : Frames}

/-- The state of the large pages after `PMap_Init`. -/
structure Initialised (root : Nat) (t : Frames) : Prop where
  direct : ∀ page < 3072, ∀ va, largePage va = firstPage + page →
    largeAt t root va = page * 2 ^ 21 ||| PTE_P ||| PTE_W ||| PTE_PS ||| 0
  stray : ∀ va, firstPage - 1024 ≤ largePage va → largePage va < firstPage - 512 →
    largeAt t root va ≠ 0
  others : ∀ va, (largePage va < firstPage - 1024 ∨
      (firstPage - 512 ≤ largePage va ∧ largePage va < firstPage) ∨ firstPage + 3072 ≤ largePage va) →
    largeAt t root va = 0

theorem largeEntry_ne_zero (phys flags k : Nat) : largeEntry phys flags k ≠ 0 := by
  intro zero
  simp [largeEntry, or_eq_zero_iff, PTE_P] at zero

theorem init_pages {s₁ s₂ s₃ : Frames} (empty : ∀ va, largeAt s root va = 0)
    (first : LargeMapped root 0 MEM_DIRECTMAP_BASE 0 0 1536 s s₁)
    (second : LargeMapped root 0xC0000000 (add64 MEM_DIRECTMAP_BASE 0xC0000000)
      (PTE_NX ||| PTE_PCD) 0 512 s₁ s₂)
    (third : LargeMapped root 0x100000000 (add64 MEM_DIRECTMAP_BASE 0x100000000) 0 0 30720 s₂ s₃) :
    Initialised root s₃ := by
  have page₁ : ∀ k, largePage (add64 MEM_DIRECTMAP_BASE (largeScaled k)) =
      (firstPage + 0 + largeShift k) % 2 ^ 27 := fun k => largePage_direct 0 k
  have page₂ : ∀ k, largePage (add64 (add64 MEM_DIRECTMAP_BASE 0xC0000000) (largeScaled k)) =
      (firstPage + 1536 + largeShift k) % 2 ^ 27 := fun k => largePage_direct 1536 k
  have page₃ : ∀ k, largePage (add64 (add64 MEM_DIRECTMAP_BASE 0x100000000) (largeScaled k)) =
      (firstPage + 2048 + largeShift k) % 2 ^ 27 := fun k => largePage_direct 2048 k
  -- the second call stays in its range, the third one wraps to the 4 GiB around its start
  have away₂ : ∀ va, (largePage va < firstPage + 1536 ∨ firstPage + 2048 ≤ largePage va) →
      largeAt s₂ root va = largeAt s₁ root va := by
    intro va outside
    refine second.others va (fun k _ few same => ?_)
    rw [page₂] at same
    unfold largeShift firstPage at *
    split at same <;> omega
  have away₃ : ∀ va, (largePage va < firstPage + 1024 ∨ firstPage + 3072 ≤ largePage va) →
      largeAt s₃ root va = largeAt s₂ root va := by
    intro va outside
    refine third.others va (fun k _ few same => ?_)
    rw [page₃] at same
    unfold largeShift firstPage at *
    split at same <;> omega
  refine ⟨?_, ?_, ?_⟩
  · intro page bound va here
    by_cases low : page < 1024
    · rw [away₃ va (by omega), away₂ va (by omega)]
      have shift : largeShift page = page := by
        unfold largeShift
        split <;> omega
      have same : largePage va = largePage (add64 MEM_DIRECTMAP_BASE (largeScaled page)) := by
        rw [page₁, shift]
        unfold firstPage at *
        omega
      rw [largeAt_congr same, first.entries page (Nat.zero_le _) (by omega)]
      exact largeEntry_direct 0 (by omega) (by rw [shift]; omega)
    · -- round `k` of the third call; below 4 GiB its product is negative
      obtain ⟨k, few, shift⟩ : ∃ k < 30720, (2048 + largeShift k) % 2 ^ 43 = page := by
        by_cases above : 2048 ≤ page
        · refine ⟨page - 2048, by omega, ?_⟩
          unfold largeShift
          split <;> omega
        · refine ⟨page, by omega, ?_⟩
          unfold largeShift
          split <;> omega
      have same : largePage va =
          largePage (add64 (add64 MEM_DIRECTMAP_BASE 0x100000000) (largeScaled k)) := by
        rw [page₃]
        unfold firstPage at *
        omega
      rw [largeAt_congr same, third.entries k (Nat.zero_le _) (by omega)]
      exact largeEntry_direct 2048 (by omega) shift
  · intro va from_below until_below
    rw [away₃ va (by omega), away₂ va (by omega)]
    have same : largePage va =
        largePage (add64 MEM_DIRECTMAP_BASE (largeScaled (largePage va + 2048 - firstPage))) := by
      rw [page₁]
      unfold largeShift firstPage at *
      split <;> omega
    rw [largeAt_congr same, first.entries _ (Nat.zero_le _) (by unfold firstPage at *; omega)]
    exact largeEntry_ne_zero _ _ _
  · intro va outside
    rw [away₃ va (by unfold firstPage at *; omega), away₂ va (by unfold firstPage at *; omega),
      first.others va, empty va]
    intro k _ few same
    rw [page₁] at same
    unfold largeShift firstPage at *
    split at same <;> omega

theorem pMap_Init_initialised (booting : Booting s) (ran : pMap_Init s = some (root, t)) :
    Initialised root t := by
  unfold pMap_Init at ran
  obtain ⟨⟨page, s₁⟩, allocated, ran⟩ := bind_eq_some_iff.mp ran
  obtain ⟨tree₁, blank, empty, _⟩ := booting.planted allocated
  obtain ⟨s₂, tables, ran⟩ := bind_eq_some_iff.mp ran
  obtain ⟨tree₂, same, _⟩ := initTables_tree _ _ _ _ tree₁ (fun j _ => blank j) tables
  obtain ⟨s₃, first, ran⟩ := bind_eq_some_iff.mp ran
  obtain ⟨s₄, second, ran⟩ := bind_eq_some_iff.mp ran
  obtain ⟨s₅, third, ran⟩ := bind_eq_some_iff.mp ran
  cases ran
  have mapped₁ := eachLargePage_maps _ _ _ _ tree₂ first
  have mapped₂ := eachLargePage_maps _ _ _ _ mapped₁.tree second
  have mapped₃ := eachLargePage_maps _ _ _ _ mapped₂.tree third
  exact init_pages (fun va => (same va).trans (empty va)) mapped₁ mapped₂ mapped₃

theorem pMap_Init_ends (booting : Booting s) (free : 65793 ≤ s.freeList.length) :
    ∃ root t, pMap_Init s = some (root, t) := by
  obtain ⟨root, s₁, allocated⟩ := pMapAllocPageTable_ends (fun pg member => (booting.ready pg member).2)
    (List.length_pos_iff.mp (by omega))
  obtain ⟨tree₁, blank, _, spent₁⟩ := booting.planted allocated
  obtain ⟨s₂, tables⟩ := initTables_ends (PAGETABLE_ENTRIES / 2) (PAGETABLE_ENTRIES / 2) s₁ tree₁
    (fun j _ => blank j) (by unfold PAGETABLE_ENTRIES; omega)
  obtain ⟨tree₂, _, spent₂⟩ := initTables_tree _ _ _ _ tree₁ (fun j _ => blank j) tables
  have half : PAGETABLE_ENTRIES / 2 = 256 := by decide
  obtain ⟨s₃, first⟩ : ∃ t, pMap_SystemLMap root 0 MEM_DIRECTMAP_BASE 1536 0 s₂ = some t :=
    eachLargePage_ends 1536 0 s₂ tree₂ (by omega)
  have mapped₁ := eachLargePage_maps 1536 _ _ _ tree₂ first
  have spent₃ := mapped₁.spent
  obtain ⟨s₄, second⟩ : ∃ t, pMap_SystemLMap root 0xC0000000
      (add64 MEM_DIRECTMAP_BASE 0xC0000000) 512 (PTE_NX ||| PTE_PCD) s₃ = some t :=
    eachLargePage_ends 512 0 s₃ mapped₁.tree (by omega)
  have mapped₂ := eachLargePage_maps 512 _ _ _ mapped₁.tree second
  have spent₄ := mapped₂.spent
  obtain ⟨t, third⟩ : ∃ t, pMap_SystemLMap root 0x100000000
      (add64 MEM_DIRECTMAP_BASE 0x100000000) 30720 0 s₄ = some t :=
    eachLargePage_ends 30720 0 s₄ mapped₂.tree (by omega)
  refine ⟨root, t, ?_⟩
  simp only [pMap_Init, allocated, tables, first, second, third, bind_eq_bind,
    bind_some, Nat.reduceMul]
  rfl

end

/-- The large pages from `virt` on, and no other ones, lead to the large pages from `phys` on. -/
structure MapsLarge (root phys virt lpages flags : Nat) (s t : Frames) : Prop where
  entries : ∀ k < lpages, largeAt t root (add64 virt (k * 2 ^ 21)) =
    add64 phys (k * 2 ^ 21) ||| PTE_P ||| PTE_W ||| PTE_PS ||| flags
  others : ∀ va, (∀ k < lpages, largePage va ≠ largePage (add64 virt (k * 2 ^ 21))) →
    largeAt t root va = largeAt s root va

section

variable {root phys virt lpages flags : Nat} {s t : Frames}

theorem systemLMap_maps (tree : SystemTree root s) (few : lpages ≤ 1024)
    (ran : pMap_SystemLMap root phys virt lpages flags s = some t) :
    MapsLarge root phys virt lpages flags s t := by
  have rounds : passes lpages = lpages := min_eq_left (by omega)
  rw [pMap_SystemLMap, rounds] at ran
  have mapped := eachLargePage_maps _ _ _ _ tree ran
  have product : ∀ k < lpages, largeScaled k = k * 2 ^ 21 := by
    intro k bound
    rw [largeScaled_eq, largeShift, if_pos (by omega)]
    omega
  refine ⟨?_, ?_⟩
  · intro k bound
    rw [← product k bound]
    exact mapped.entries k (Nat.zero_le k) (by omega)
  · intro va away
    refine mapped.others va (fun k _ bound => ?_)
    rw [zero_add] at bound
    rw [product k bound]
    exact away k bound

/-- The page 2 GiB above `virt` is in the range and no round gets to it. -/
theorem systemLMap_wraps (tree : SystemTree root s) (many : 1024 < lpages)
    (unmapped : largeAt s root (add64 virt (1024 * 2 ^ 21)) = 0)
    (ran : pMap_SystemLMap root phys virt lpages flags s = some t) :
    ¬ MapsLarge root phys virt lpages flags s t := by
  intro maps
  have mapped := eachLargePage_maps _ _ _ _ tree ran
  have same := mapped.others (add64 virt (1024 * 2 ^ 21)) (by
    intro k _ _ same
    rw [largePage_round] at same
    unfold largePage largeShift add64 word64 at same
    split at same <;> omega)
  rw [maps.entries 1024 many, unmapped] at same
  simp [or_eq_zero_iff, PTE_P] at same

end

/-- After `PMap_Init` the direct map is right for the first 6 GiB and missing above them, and the
entries of 512 large pages below it are made. A single call of `PMap_SystemLMap` maps what it is
asked to up to 1024 large pages, and with more it does not map the 1025th one. -/
theorem direct_map_iff {s t : Frames} {root : Nat} (booting : Booting s)
    (ran : pMap_Init s = some (root, t)) :
    (∀ pa < 2 ^ 36, pMap_Translate root (MEM_DIRECTMAP_BASE + pa) t = some pa ↔ pa < 6 * 2 ^ 30) ∧
    (∀ va, largePage va < firstPage ∨ firstPage + 2 ^ 15 ≤ largePage va →
      (largeAt t root va ≠ 0 ↔
        firstPage - 1024 ≤ largePage va ∧ largePage va < firstPage - 512)) ∧
    (∀ s root phys virt lpages flags t, SystemTree root s → lpages ≤ 30720 →
      pMap_SystemLMap root phys virt lpages flags s = some t →
      (lpages ≤ 1024 → MapsLarge root phys virt lpages flags s t) ∧
      (1024 < lpages → largeAt s root (add64 virt (1024 * 2 ^ 21)) = 0 →
        ¬ MapsLarge root phys virt lpages flags s t)) := by
  have pages := pMap_Init_initialised booting ran
  have here : ∀ pa < 2 ^ 36, largePage (MEM_DIRECTMAP_BASE + pa) = firstPage + pa / 2 ^ 21 := by
    intro pa small
    unfold largePage MEM_DIRECTMAP_BASE firstPage
    omega
  refine ⟨?_, ?_, ?_⟩
  · intro pa small
    constructor
    · intro found
      by_contra above
      rw [translate_unmapped (pages.others _ (by rw [here pa small]; omega))] at found
      cases found
    · intro low
      exact translate_direct small (pages.direct (pa / 2 ^ 21) (by omega) _ (here pa small))
  · intro va outside
    constructor
    · intro made
      by_contra elsewhere
      refine made (pages.others va ?_)
      omega
    · rintro ⟨from_below, until_below⟩
      exact pages.stray va from_below until_below
  · intro s root phys virt lpages flags t tree _ ran
    exact ⟨fun few => systemLMap_maps tree few ran,
      fun many unmapped => systemLMap_wraps tree many unmapped ran⟩

/-- A machine with 256 MiB and a little more of free memory. -/
def bootFrames : Frames where
  freeList := List.range' 1 65793
  freePages := 65793
  totalPages := 65793
  refCount := fun _ => 0
  memory := fun _ i => if i = 0 then FREEPAGE_MAGIC_FREE else 0

theorem bootFrames_booting : Booting bootFrames := by
  refine ⟨List.nodup_range', ?_⟩
  intro pg free
  have small : pg < 65794 := by
    have := (List.mem_range'_1.mp free).2
    omega
  exact ⟨by omega, rfl, rfl⟩

theorem direct_map_iff_boot : ∃ root t, pMap_Init bootFrames = some (root, t) ∧
    pMap_Translate root (MEM_DIRECTMAP_BASE + 0xB8000) t = some 0xB8000 := by
  obtain ⟨root, t, ran⟩ := pMap_Init_ends bootFrames_booting (List.length_range' ..).ge
  refine ⟨root, t, ran, ?_⟩
  exact ((direct_map_iff bootFrames_booting ran).1 0xB8000 (by decide)).mpr (by decide)

/-- The address 6 GiB has no translation, and the page 2 GiB below the direct map has one. -/
theorem direct_map_incomplete : ∃ root t, pMap_Init bootFrames = some (root, t) ∧
    pMap_Translate root (MEM_DIRECTMAP_BASE + 6 * 2 ^ 30) t ≠ some (6 * 2 ^ 30) ∧
    largeAt t root (MEM_DIRECTMAP_BASE - 2 ^ 31) ≠ 0 := by
  obtain ⟨root, t, ran⟩ := pMap_Init_ends bootFrames_booting (List.length_range' ..).ge
  have pages := pMap_Init_initialised bootFrames_booting ran
  refine ⟨root, t, ran, ?_, pages.stray _ (by decide) (by decide)⟩
  rw [translate_unmapped (pages.others _ (Or.inr (Or.inr (by decide))))]
  simp

end BoringOs.PMap
