import BoringOs.BufCacheInvariant

/-! The order in which `BufCacheAlloc` takes entries. A run is observed from outside: which entries
have ever had a reference, and when the reference count of an entry last dropped to zero. -/

namespace BoringOs.BufCache

open ByteMemory List

/-- The cache with what an observer has noted: the number of operations so far, the entries
that have had a reference, and the operation at which a count last dropped to zero. -/
structure Observed where
  cache : BufState
  clock : Nat
  used : EntryId → Bool
  dropped : EntryId → Nat

def Observed.start (cache : BufState) : Observed := ⟨cache, 0, fun _ => false, fun _ => 0⟩

def Observed.next (o : Observed) (t : BufState) : Observed where
  cache := t
  clock := o.clock + 1
  used e := o.used e || (t.entry e).refCount != 0
  dropped e :=
    if (o.cache.entry e).refCount ≠ 0 ∧ (t.entry e).refCount = 0 then o.clock else o.dropped e

inductive Operation where
  | call (call : Call)
  | write (e : EntryId)

inductive ObservedStep : Observed → Operation → Observed → Prop where
  | call {o : Observed} {call : Call} {t : BufState} (step : Step o.cache call t) :
      ObservedStep o (.call call) (o.next t)
  | write (o : Observed) (e : EntryId) :
      ObservedStep o (.write e) (o.next (bufCache_Write o.cache e).2)

/-- `x` is to be taken before `y`: entries that were never used come first, in their initial
order, and then the ones released longer ago. -/
def Observed.Before (o : Observed) (x y : EntryId) : Prop :=
  (o.used x = false ∧ o.used y = false ∧ x < y) ∨ (o.used x = false ∧ o.used y = true) ∨
    (o.used x = true ∧ o.used y = true ∧ o.dropped x < o.dropped y)

variable {s t : BufState} {e x : EntryId} {bufBase : Nat}

structure Ordered (bufBase : Nat) (o : Observed) : Prop where
  rep : RepInv bufBase o.cache
  order : o.cache.lruList.Pairwise o.Before
  held : ∀ e, (o.cache.entry e).refCount ≠ 0 → o.used e = true
  past : ∀ e ∈ o.cache.lruList, o.used e = true → o.dropped e < o.clock

theorem RepInv.mem_lru (inv : RepInv bufBase s)
    (bound : e < CACHEENTRIES) : e ∈ s.lruList ↔ (s.entry e).refCount = 0 := by
  rw [← count_pos_iff, inv.lru e bound]
  split <;> simp_all

theorem step_list {call : Call} (inv : RepInv bufBase s) (step : Step s call t) :
    t.lruList.Sublist s.lruList ∨
    ∃ e, t.lruList = s.lruList ++ [e] ∧ (s.entry e).refCount ≠ 0 ∧ (t.entry e).refCount = 0 := by
  have retained : ∀ e, (retainEntry s e).lruList.Sublist s.lruList := by
    intro e
    unfold retainEntry
    dsimp only
    split
    · exact erase_sublist
    · exact List.Sublist.refl _
  have recycled : ∀ (s : BufState) e rest disk offset,
      (recycleEntry s e rest disk offset).lruList = rest := by
    intro s e rest disk offset
    unfold recycleEntry rehashEntry unhashEntry
    split <;> rfl
  cases step with
  | alloc disk offset =>
    left
    rcases bufCache_Alloc_cases inv disk offset with
      ⟨e, _, _, _, result⟩ | ⟨_, _, result⟩ | ⟨_, e, rest, head, result⟩
    · rw [result]
      exact retained e
    · rw [result]
    · rw [result, head]
      show (recycleEntry s e rest disk offset).lruList.Sublist (e :: rest)
      rw [recycled]
      exact sublist_cons_self e rest
  | read disk offset =>
    left
    rcases bufCache_Read_cases inv disk offset with
      ⟨e, _, _, _, result⟩ | ⟨_, _, result⟩ | ⟨_, e, rest, head, result⟩
    · rw [result]
      exact retained e
    · rw [result]
    · rw [result, head, (diskRead_lists _ _ _ _ _).2.2, recycled]
      exact sublist_cons_self e rest
  | release e bound held =>
    by_cases last : (s.entry e).refCount - 1 = 0
    · right
      exact ⟨e, by simp [bufCache_Release, last], held, by simp [bufCache_Release, last]⟩
    · left
      simp [bufCache_Release, last]

section

variable {bufBase : Nat} {o : Observed} {t : BufState}

theorem Observed.next_same (before : (o.cache.entry x).refCount = 0)
    (after : (t.entry x).refCount = 0) :
    (o.next t).used x = o.used x ∧ (o.next t).dropped x = o.dropped x := by
  simp [Observed.next, before, after]

theorem Observed.next_held (held : (t.entry e).refCount ≠ 0) : (o.next t).used e = true := by
  simp [Observed.next, held]

section

variable (ordered : Ordered bufBase o)
include ordered

section

variable (after : RepInv bufBase t)
include after

theorem Ordered.before_next {x y : EntryId} (xOld : x ∈ o.cache.lruList) (xNew : x ∈ t.lruList)
    (yOld : y ∈ o.cache.lruList) (yNew : y ∈ t.lruList) (before : o.Before x y) :
    (o.next t).Before x y := by
  have xBound := ordered.rep.lruEntries x xOld
  have yBound := ordered.rep.lruEntries y yOld
  obtain ⟨xUsed, xDropped⟩ := Observed.next_same ((ordered.rep.mem_lru xBound).mp xOld)
    ((after.mem_lru xBound).mp xNew)
  obtain ⟨yUsed, yDropped⟩ := Observed.next_same ((ordered.rep.mem_lru yBound).mp yOld)
    ((after.mem_lru yBound).mp yNew)
  unfold Observed.Before
  rw [xUsed, yUsed, xDropped, yDropped]
  exact before

theorem Ordered.past_next
    (old : x ∈ o.cache.lruList) (new : x ∈ t.lruList) (used : (o.next t).used x = true) :
    (o.next t).dropped x < o.clock := by
  have bound := ordered.rep.lruEntries x old
  obtain ⟨sameUsed, sameDropped⟩ := Observed.next_same ((ordered.rep.mem_lru bound).mp old)
    ((after.mem_lru bound).mp new)
  rw [sameDropped]
  exact ordered.past x old (sameUsed ▸ used)

theorem Ordered.shrink (fewer : t.lruList.Sublist o.cache.lruList) : Ordered bufBase (o.next t) where
  rep := after
  order := by
    refine (ordered.order.sublist fewer).imp_of_mem ?_
    intro x y xNew yNew before
    exact ordered.before_next after (fewer.subset xNew) xNew (fewer.subset yNew) yNew before
  held e held := Observed.next_held held
  past e new used :=
    Nat.lt_succ_of_lt (ordered.past_next after (fewer.subset new) new used)

theorem Ordered.append
    (list : t.lruList = o.cache.lruList ++ [e]) (before : (o.cache.entry e).refCount ≠ 0)
    (now : (t.entry e).refCount = 0) : Ordered bufBase (o.next t) := by
  have new : ∀ x ∈ o.cache.lruList, x ∈ t.lruList := by
    intro x old
    rw [list]
    exact mem_append_left _ old
  have eUsed : (o.next t).used e = true := by
    have := ordered.held e before
    simp [Observed.next, this]
  have eDropped : (o.next t).dropped e = o.clock := by simp [Observed.next, before, now]
  have last : ∀ x ∈ o.cache.lruList, (o.next t).Before x e := by
    intro x old
    cases used : (o.next t).used x with
    | false => exact .inr (.inl ⟨used, eUsed⟩)
    | true =>
      refine .inr (.inr ⟨used, eUsed, ?_⟩)
      rw [eDropped]
      exact ordered.past_next after old (new x old) used
  refine ⟨after, ?_, fun x held => Observed.next_held held, ?_⟩
  · show t.lruList.Pairwise (o.next t).Before
    rw [list]
    refine pairwise_append.mpr ⟨?_, pairwise_singleton _ _, ?_⟩
    · refine ordered.order.imp_of_mem ?_
      intro x y xOld yOld earlier
      exact ordered.before_next after xOld (new x xOld) yOld (new y yOld) earlier
    · intro x old y final
      rw [mem_singleton.mp final]
      exact last x old
  · intro x member used
    change x ∈ t.lruList at member
    rw [list, mem_append, mem_singleton] at member
    rcases member with old | rfl
    · exact Nat.lt_succ_of_lt (ordered.past_next after old (new x old) used)
    · rw [eDropped]
      exact Nat.lt_succ_self _

end

theorem observedStep_ordered {u : Observed} {operation : Operation}
    (step : ObservedStep o operation u) : Ordered bufBase u := by
  cases step with
  | call step =>
    have after := step_inv ordered.rep step
    rcases step_list ordered.rep step with fewer | ⟨e, list, before, now⟩
    · exact ordered.shrink after fewer
    · exact ordered.append after list before now
  | write e =>
    obtain ⟨entries, chains, list⟩ := bufCache_Write_lists o.cache e
    refine ordered.shrink (ordered.rep.of_lists entries chains list) ?_
    rw [list]

end

theorem start_ordered (bufBase : Nat) (memory : Memory) (disk : DiskId → Memory)
    (readStatus writeStatus : Nat → Int) :
    Ordered bufBase (.start (bufCacheInit bufBase memory disk readStatus writeStatus)) where
  rep := bufCacheInit_inv bufBase memory disk readStatus writeStatus
  order := by
    simp only [Observed.start, bufCacheInit]
    apply List.Pairwise.imp _ pairwise_lt_range
    intro x y less
    exact .inl ⟨rfl, rfl, less⟩
  held _ held := absurd rfl held
  past _ _ used := absurd used (by simp [Observed.start])

theorem Ordered.head_first (ordered : Ordered bufBase o) {rest : List EntryId}
    (head : o.cache.lruList = e :: rest) (bound : x < CACHEENTRIES)
    (free : (o.cache.entry x).refCount = 0) (other : x ≠ e) : o.Before e x := by
  have member := (ordered.rep.mem_lru bound).mpr free
  have order := ordered.order
  rw [head] at member order
  rcases mem_cons.mp member with same | later
  · exact absurd same other
  · exact rel_of_pairwise_cons order later

theorem RepInv.lru_empty (inv : RepInv bufBase s) :
    s.lruList = [] ↔ ∀ e < CACHEENTRIES, (s.entry e).refCount ≠ 0 := by
  rw [eq_nil_iff_forall_not_mem]
  constructor
  · intro empty e bound free
    exact empty e ((inv.mem_lru bound).mpr free)
  · intro referenced e member
    have bound := inv.lruEntries e member
    exact referenced e bound ((inv.mem_lru bound).mp member)

end

/-- In every state that a run of cache operations reaches, `BufCacheAlloc` fails exactly when
all entries are referenced and then changes nothing, and otherwise takes an unreferenced entry:
the first one that was never used, and when all have been used the one whose count dropped to
zero the longest ago. -/
theorem bufcache_replacement_order (bufBase : Nat) (memory : Memory) (disk : DiskId → Memory)
    (readStatus writeStatus : Nat → Int) (operations : List Operation) (o : Observed)
    (ran : Runs.Run ObservedStep
      (.start (bufCacheInit bufBase memory disk readStatus writeStatus)) operations o)
    (d : DiskId) (offset : Nat) :
    ((bufCacheAlloc o.cache d offset).1 = ENOMEM ↔
      ∀ e < CACHEENTRIES, (o.cache.entry e).refCount ≠ 0) ∧
    ((bufCacheAlloc o.cache d offset).1 = ENOMEM → bufCacheAlloc o.cache d offset =
      (ENOMEM, none, { o.cache with noSpace := o.cache.noSpace + 1 })) ∧
    ((bufCacheAlloc o.cache d offset).1 ≠ ENOMEM → ∃ e < CACHEENTRIES,
      (bufCacheAlloc o.cache d offset).1 = 0 ∧ (bufCacheAlloc o.cache d offset).2.1 = some e ∧
      (o.cache.entry e).refCount = 0 ∧
      (∀ x < CACHEENTRIES, o.used x = false → o.used e = false ∧ e ≤ x) ∧
      (o.used e = true → ∀ x < CACHEENTRIES, (o.cache.entry x).refCount = 0 → x ≠ e →
        o.used x = true ∧ o.dropped e < o.dropped x)) := by
  have ordered : Ordered bufBase o := ran.invariant (Ordered bufBase)
    (fun _ _ _ before step => observedStep_ordered before step)
    (start_ordered bufBase memory disk readStatus writeStatus)
  rcases bufCacheAlloc_cases o.cache d offset with ⟨empty, failed⟩ | ⟨e, rest, head, taken⟩
  · have referenced := ordered.rep.lru_empty.mp empty
    rw [failed]
    exact ⟨⟨fun _ => referenced, fun _ => rfl⟩, fun _ => rfl, fun ok => absurd rfl ok⟩
  · obtain ⟨bound, free, _⟩ := ordered.rep.lru_head head
    rw [taken]
    have succeeded : (0 : Int) ≠ ENOMEM := by decide
    refine ⟨⟨fun wrong => absurd wrong succeeded, fun referenced => ?_⟩,
      fun wrong => absurd wrong succeeded, fun _ => ⟨e, bound, rfl, rfl, free, ?_, ?_⟩⟩
    · exact absurd free (referenced e bound)
    · intro x xBound unused
      have xFree : (o.cache.entry x).refCount = 0 := by
        by_contra held
        rw [ordered.held x held] at unused
        cases unused
      by_cases same : x = e
      · subst x
        exact ⟨unused, le_rfl⟩
      · rcases ordered.head_first head xBound xFree same with
          ⟨eUnused, _, less⟩ | ⟨_, used⟩ | ⟨_, used, _⟩
        · exact ⟨eUnused, le_of_lt less⟩
        · rw [unused] at used
          cases used
        · rw [unused] at used
          cases used
    · intro eUsed x xBound xFree other
      rcases ordered.head_first head xBound xFree other with
        ⟨eUnused, _, _⟩ | ⟨eUnused, _⟩ | ⟨_, xUsed, less⟩
      · rw [eUsed] at eUnused
        cases eUnused
      · rw [eUsed] at eUnused
        cases eUnused
      · exact ⟨xUsed, less⟩

theorem observed_pair {s t u : BufState} {first second : Call} (one : Step s first t)
    (two : Step t second u) : Runs.Run ObservedStep (.start s) [.call first, .call second]
      (((Observed.start s).next t).next u) :=
  .cons (.call one) (.single (.call two))

theorem bufcache_replacement_order_second :
    let start := bufCacheInit 0 (fun _ => 0) (fun _ _ => 7) (fun _ => 0) (fun _ => 0)
    let s := bufCache_Release (bufCache_Read start 1 16384).2.2 0
    (bufCacheAlloc s 1 0).2.1 = some 1 ∧ ∃ e < CACHEENTRIES,
      (bufCacheAlloc s 1 0).2.1 = some e ∧ (s.entry e).refCount = 0 := by
  intro start s
  have held : ((bufCache_Read start 1 16384).2.2.entry 0).refCount ≠ 0 := by
    decide +kernel
  have released : Step (bufCache_Read start 1 16384).2.2 (.release 0) s :=
    .release _ 0 (by decide +kernel) held
  have ran := observed_pair (.read start 1 16384) released
  have found : (bufCacheAlloc s 1 0).1 ≠ ENOMEM := by decide +kernel
  obtain ⟨e, bound, _, taken, free, _⟩ :=
    (bufcache_replacement_order 0 _ _ _ _ _ _ ran 1 0).2.2 found
  have second : (bufCacheAlloc s 1 0).2.1 = some 1 := by decide +kernel
  simp only [Observed.next] at taken free
  exact ⟨second, e, bound, taken, free⟩

end BoringOs.BufCache
