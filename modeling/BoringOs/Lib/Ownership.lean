import Mathlib.Data.Set.Insert

/-! Exclusive ownership of the blocks of a store. Each slot owns at most one block and no block has
two owners. Some blocks are reserved. `used` is the allocator's record: every owned or reserved
block is in it, so a block outside it can be handed out. -/

namespace Ownership

open Function

variable {Slot Block : Type}

structure Owned (slots : Slot → Option Block) (reserved used : Set Block) : Prop where
  recorded : ∀ slot block, slots slot = some block → block ∈ used
  unreserved : ∀ slot block, slots slot = some block → block ∉ reserved
  exclusive : ∀ slot other block, slots slot = some block → slots other = some block → slot = other
  reservedUsed : reserved ⊆ used

variable {slots : Slot → Option Block} {reserved used : Set Block}

section

variable (owned : Owned slots reserved used)
include owned

theorem Owned.mark (block : Block) :
    Owned slots reserved (insert block used) where
  recorded slot other found := Set.mem_insert_of_mem block (owned.recorded slot other found)
  unreserved := owned.unreserved
  exclusive := owned.exclusive
  reservedUsed := owned.reservedUsed.trans (Set.subset_insert block used)

theorem Owned.claim [DecidableEq Slot] {block : Block} (fresh : block ∉ used) (slot : Slot) :
    Owned (update slots slot (some block)) reserved (insert block used) := by
  have unowned : ∀ other, slots other ≠ some block := by
    intro other found
    exact fresh (owned.recorded other block found)
  have old : ∀ other found, other ≠ slot →
      update slots slot (some block) other = some found → slots other = some found := by
    intro other found different holds
    rwa [update_of_ne different] at holds
  constructor
  · intro other found holds
    by_cases same : other = slot
    · rw [same, update_self] at holds
      rw [← Option.some.inj holds]
      exact Set.mem_insert block used
    · exact Set.mem_insert_of_mem block (owned.recorded other found (old other found same holds))
  · intro other found holds
    by_cases same : other = slot
    · rw [same, update_self] at holds
      rw [← Option.some.inj holds]
      intro member
      exact fresh (owned.reservedUsed member)
    · exact owned.unreserved other found (old other found same holds)
  · intro first second found firstHolds secondHolds
    by_cases firstSame : first = slot
    · by_cases secondSame : second = slot
      · rw [firstSame, secondSame]
      · rw [firstSame, update_self] at firstHolds
        have holds := old second found secondSame secondHolds
        rw [← Option.some.inj firstHolds] at holds
        exact absurd holds (unowned second)
    · by_cases secondSame : second = slot
      · rw [secondSame, update_self] at secondHolds
        have holds := old first found firstSame firstHolds
        rw [← Option.some.inj secondHolds] at holds
        exact absurd holds (unowned first)
      · exact owned.exclusive first second found (old first found firstSame firstHolds)
          (old second found secondSame secondHolds)
  · exact owned.reservedUsed.trans (Set.subset_insert block used)

theorem Owned.forget {fewer : Slot → Option Block}
    (kept : ∀ slot, fewer slot = none ∨ fewer slot = slots slot) : Owned fewer reserved used := by
  have old : ∀ slot block, fewer slot = some block → slots slot = some block := by
    intro slot block holds
    rcases kept slot with gone | same
    · rw [gone] at holds
      simp at holds
    · rw [← same]
      exact holds
  constructor
  · intro slot block holds
    exact owned.recorded slot block (old slot block holds)
  · intro slot block holds
    exact owned.unreserved slot block (old slot block holds)
  · intro slot other block holds otherHolds
    exact owned.exclusive slot other block (old slot block holds) (old other block otherHolds)
  · exact owned.reservedUsed

end

end Ownership
