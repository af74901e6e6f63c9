import BoringOs.Errno
import Mathlib.Data.List.Nodup

/-! The threads of a process and their reference counts, after `sys/kern/thread.c`. -/

namespace BoringOs.Threads

open List

def TID_ANY : Nat := 0xFFFFFFFF

structure Thread where
  refCount : Nat
  exitValue : Nat

/-- The fields of a process that describe its threads. A thread object is named by its `tid`,
and `destroyed` are the objects that `Thread_Destroy` has freed. -/
structure Process where
  thread : Nat → Thread
  threads : Nat
  threadList : List Nat
  zombieQueue : List Nat
  nextThreadID : Nat
  destroyed : List Nat

def Process.refCount (s : Process) (thr : Nat) : Nat := (s.thread thr).refCount

def Process.setRefCount (s : Process) (thr count : Nat) : Process :=
  { s with thread := Function.update s.thread thr { s.thread thr with refCount := count } }

def thread_Create (s : Process) : Nat × Process :=
  (s.nextThreadID, { s with
    thread := Function.update s.thread s.nextThreadID ⟨1, 0⟩
    threads := s.threads + 1
    threadList := s.threadList ++ [s.nextThreadID]
    nextThreadID := s.nextThreadID + 1 })

def thread_Destroy (thr : Nat) (s : Process) : Process :=
  { s with
    threads := s.threads - 1
    threadList := s.threadList.erase thr
    destroyed := s.destroyed ++ [thr] }

def thread_Retain (thr : Nat) (s : Process) : Option Process :=
  if s.refCount thr = 0 then none else some (s.setRefCount thr (s.refCount thr + 1))

def thread_Release (thr : Nat) (s : Process) : Option Process :=
  if s.refCount thr = 0 then none
  else
    let t := s.setRefCount thr (s.refCount thr - 1)
    if s.refCount thr = 1 then some (thread_Destroy thr t) else some t

/-- The insertion into `zombieQueue` of `Sched_SetZombie`. -/
def insertZombie (thr : Nat) (s : Process) : Process :=
  { s with zombieQueue := s.zombieQueue ++ [thr] }

/-- What `Thread_Wait` does with the thread it has found. -/
def reapZombie (thr : Nat) (s : Process) : Option Process :=
  thread_Release thr { s with zombieQueue := s.zombieQueue.erase thr }

structure Process.Inv (s : Process) : Prop where
  nodup : s.threadList.Nodup
  count : s.threads = s.threadList.length
  listed : ∀ thr, thr ∈ s.threadList ↔ s.refCount thr ≠ 0
  below : ∀ thr ∈ s.threadList, thr < s.nextThreadID

section

variable {s t : Process} {thr : Nat}

@[simp] theorem refCount_setRefCount (s : Process) (thr count x : Nat) :
    (s.setRefCount thr count).refCount x = if x = thr then count else s.refCount x := by
  unfold Process.refCount Process.setRefCount
  by_cases same : x = thr <;> simp [same]

theorem Process.Inv.fresh (inv : s.Inv) : s.nextThreadID ∉ s.threadList :=
  fun member => lt_irrefl _ (inv.below _ member)

theorem Process.Inv.create (inv : s.Inv) : (thread_Create s).2.Inv := by
  have fresh := inv.fresh
  refine ⟨?_, ?_, ?_, ?_⟩
  · refine inv.nodup.append (nodup_singleton _) ?_
    rw [disjoint_singleton]
    exact fresh
  · simp [thread_Create, inv.count]
  · intro x
    simp only [thread_Create, mem_append, mem_singleton, Process.refCount]
    by_cases new : x = s.nextThreadID
    · simp [new]
    · simp only [new, or_false, ne_eq, not_false_eq_true, Function.update_of_ne]
      exact inv.listed x
  · intro x member
    simp only [thread_Create, mem_append, mem_singleton] at member ⊢
    rcases member with old | rfl
    · exact Nat.lt_succ_of_lt (inv.below x old)
    · exact Nat.lt_succ_self _

theorem Process.Inv.retain (inv : s.Inv) (ran : thread_Retain thr s = some t) :
    t.Inv ∧ t.threadList = s.threadList ∧ t.threads = s.threads ∧ t.zombieQueue = s.zombieQueue ∧
      t.nextThreadID = s.nextThreadID ∧ t.destroyed = s.destroyed ∧
      ∀ x, t.refCount x = if x = thr then s.refCount thr + 1 else s.refCount x := by
  unfold thread_Retain at ran
  split at ran
  · cases ran
  · rename_i held
    cases ran
    refine ⟨⟨inv.nodup, inv.count, ?_, inv.below⟩, rfl, rfl, rfl, rfl, rfl,
      refCount_setRefCount s thr _⟩
    intro x
    rw [refCount_setRefCount]
    split
    · rename_i same
      subst same
      exact (inv.listed x).trans ⟨fun _ => Nat.succ_ne_zero _, fun _ => held⟩
    · exact inv.listed x

theorem Process.Inv.release (inv : s.Inv) (ran : thread_Release thr s = some t) :
    t.Inv ∧ s.refCount thr ≠ 0 ∧ t.zombieQueue = s.zombieQueue ∧ t.nextThreadID = s.nextThreadID ∧
      (∀ x, t.refCount x = if x = thr then s.refCount thr - 1 else s.refCount x) ∧
      (s.refCount thr = 1 ∧ t.threadList = s.threadList.erase thr ∧ t.destroyed = s.destroyed ++ [thr] ∨
        s.refCount thr ≠ 1 ∧ t.threadList = s.threadList ∧ t.destroyed = s.destroyed) := by
  unfold thread_Release at ran
  split at ran
  · cases ran
  · rename_i held
    have member := (inv.listed thr).mpr held
    split at ran
    · rename_i last
      cases ran
      refine ⟨⟨inv.nodup.erase _, ?_, ?_, ?_⟩, held, rfl, rfl, ?_, .inl ⟨last, rfl, rfl⟩⟩
      · show s.threads - 1 = (s.threadList.erase thr).length
        rw [length_erase_of_mem member, inv.count]
      · intro x
        show x ∈ s.threadList.erase thr ↔ (s.setRefCount thr (s.refCount thr - 1)).refCount x ≠ 0
        rw [inv.nodup.mem_erase_iff, refCount_setRefCount, last, inv.listed]
        by_cases same : x = thr <;> simp [same]
      · exact fun x inside => inv.below x (mem_of_mem_erase inside)
      · exact refCount_setRefCount s thr _
    · rename_i more
      cases ran
      refine ⟨⟨inv.nodup, inv.count, ?_, inv.below⟩, held, rfl, rfl, refCount_setRefCount s thr _,
        .inr ⟨more, rfl, rfl⟩⟩
      intro x
      rw [refCount_setRefCount]
      split
      · rename_i same
        subst same
        exact ⟨fun _ => by omega, fun _ => member⟩
      · exact inv.listed x

end

end BoringOs.Threads
