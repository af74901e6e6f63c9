import BoringOs.Semaphore
import BoringOs.Thread
import Mathlib.Algebra.BigOperators.Group.Finset.Basic

/-! `Syscall_ThreadExit` and `Syscall_ThreadWait` of `sys/kern/syscall.c` over `zombieSemaphore` and
`zombieQueue` of one process. The queue has no lock, so `Thread_Wait` finds a thread in one step and
removes it in another. The reference counts of the threads are the subject of `ThreadDestroy`. -/

namespace BoringOs.ThreadWait

open Runs Semaphore Threads List Nat

/-- How far a thread is in `Syscall_ThreadExit` or in `Syscall_ThreadWait`. -/
inductive Stage where
  /-- No thread yet. -/
  | absent
  | running
  /-- Between `Sched_SetZombie` and `Semaphore_Release`. -/
  | queued
  /-- Behind `Semaphore_Release`. -/
  | exited
  /-- Switched away from as a zombie, before its `Semaphore_Release`. -/
  | stopped
  /-- Before a pass of `Semaphore_Acquire`. -/
  | acquiring (tid : Nat)
  | asleep (tid : Nat)
  /-- In `Thread_Wait`, before the look at `zombieQueue`. -/
  | searching (tid : Nat)
  /-- In `Thread_Wait`, before the removal of `thr`. -/
  | removing (tid thr : Nat)
  /-- Before the `Semaphore_Release` that follows `EAGAIN`. -/
  | retrying (tid : Nat)
  deriving DecidableEq

/-- A process. A thread is named by its `tid`; `reaped` are the threads that `Thread_Wait` has
removed, and `returned` is what `Syscall_ThreadWait` was called with and has just returned. -/
structure State where
  nextThreadID : Nat
  stage : Nat → Stage
  exitValue : Nat → Nat
  zombieQueue : List Nat
  sema : Sema
  reaped : List Nat
  returned : Option (Nat × Nat)

def THREAD_REGION : Nat := 2 ^ 27

inductive Label where
  | create (cur : Nat)
  /-- `Syscall_ThreadExit` up to `Sched_SetZombie`. -/
  | exit (cur status : Nat)
  /-- `Semaphore_Release` of `Syscall_ThreadExit`. -/
  | post (cur : Nat)
  /-- A timer tick on the CPU of a zombie: it never runs again. -/
  | tick (cur : Nat)
  | wait (cur tid : Nat)
  | acquire (cur : Nat)
  | search (cur : Nat)
  | remove (cur : Nat)
  /-- `Semaphore_Release` of `Syscall_ThreadWait`. -/
  | retry (cur : Nat)

def State.goto (s : State) (thr : Nat) (stage : Stage) : State :=
  { s with stage := Function.update s.stage thr stage, returned := none }

/-- A thread that is taken off `waiters` looks at `count` again. -/
def State.wake (s : State) : Option Nat → State
  | none => s
  | some thr =>
    match s.stage thr with
    | .asleep tid => s.goto thr (.acquiring tid)
    | _ => s

/-- `Semaphore_Release` of `zombieSemaphore`. -/
def State.release (s : State) : State :=
  let (woken, sema) := semaphore_Release s.sema
  { s with sema := sema }.wake woken

/-- The look of `Thread_Wait` at `zombieQueue`: the thread it goes on with, or its result. -/
def thread_Wait (tid : Nat) (zombieQueue : List Nat) : Except Nat Nat :=
  if tid = TID_ANY then
    match zombieQueue.head? with
    | none => .error (SYSCALL_PACK EAGAIN 0)
    | some thr => .ok thr
  else
    match zombieQueue.find? (· = tid) with
    | none => .error 0
    | some thr => .ok thr

/-- The test of `Syscall_ThreadWait` behind `Thread_Wait`. -/
def State.finish (s : State) (cur tid status : Nat) : State :=
  if SYSCALL_ERRCODE status ≠ EAGAIN then
    { s.goto cur .running with returned := some (tid, status) }
  else s.goto cur (.retrying tid)

def apply (s : State) : Label → Option State
  | .create cur =>
    if s.stage cur = .running ∧ s.nextThreadID < s.reaped.length + THREAD_REGION then
      some ({ s with nextThreadID := s.nextThreadID + 1 }.goto s.nextThreadID .running)
    else none
  | .exit cur status =>
    if s.stage cur = .running ∧ status < word64 then
      some ({ s with
        exitValue := Function.update s.exitValue cur status
        zombieQueue := s.zombieQueue ++ [cur] }.goto cur .queued)
    else none
  | .post cur => if s.stage cur = .queued then some (s.release.goto cur .exited) else none
  | .tick cur => if s.stage cur = .queued then some (s.goto cur .stopped) else none
  | .wait cur tid => if s.stage cur = .running then some (s.goto cur (.acquiring tid)) else none
  | .acquire cur =>
    match s.stage cur with
    | .acquiring tid =>
      let (acquired, sema) := semaphore_Acquire cur s.sema
      some ({ s with sema := sema }.goto cur (if acquired then .searching tid else .asleep tid))
    | _ => none
  | .search cur =>
    match s.stage cur with
    | .searching tid =>
      match thread_Wait tid s.zombieQueue with
      | .ok thr => some (s.goto cur (.removing tid thr))
      | .error status => some (s.finish cur tid status)
    | _ => none
  | .remove cur =>
    match s.stage cur with
    | .removing tid thr =>
      some ({ s with zombieQueue := s.zombieQueue.erase thr, reaped := thr :: s.reaped }.finish
        cur tid (SYSCALL_PACK 0 (s.exitValue thr)))
    | _ => none
  | .retry cur =>
    match s.stage cur with
    | .retrying tid => some (s.release.goto cur (.acquiring tid))
    | _ => none

def Stage.resting : Stage → Bool
  | .absent | .running | .exited | .stopped | .asleep _ => true
  | _ => false

def Quiescent (s : State) : Prop := ∀ thr < s.nextThreadID, (s.stage thr).resting = true

instance (s : State) : Decidable (Quiescent s) :=
  inferInstanceAs (Decidable (∀ thr < s.nextThreadID, _))

def Served (s t : State) : Prop :=
  ∃ tid status thr, t.returned = some (tid, status) ∧ (tid = 0 ∨ tid = TID_ANY ∨ thr = tid) ∧
    SYSCALL_ERRCODE status = 0 ∧ SYSCALL_VALUE status = s.exitValue thr ∧
    thr ∈ s.zombieQueue ∧ t.zombieQueue = s.zombieQueue.erase thr ∧
    thr ∉ s.reaped ∧ t.reaped = thr :: s.reaped

/-- Threads are removed only by calls that return them, and the semaphore counts the zombies
when nothing is under way. -/
structure Good (s t : State) : Prop where
  served : t.reaped = s.reaped ∧ t.returned = none ∨ Served s t
  counted : Quiescent t → t.sema.count = t.zombieQueue.length

/-- A thread that is waited for by its `tid` is on the queue at the look at it, a thread that
was found is still there at its removal, and its exit value leaves the error code alone. -/
def Present (s : State) : Label → Prop
  | .search cur =>
    match s.stage cur with
    | .searching tid => tid = TID_ANY ∨ tid ∈ s.zombieQueue
    | _ => True
  | .remove cur =>
    match s.stage cur with
    | .removing _ thr => thr ∈ s.zombieQueue ∧ s.exitValue thr < 2 ^ 32
    | _ => True
  | _ => True

/-- No thread was switched away from before its `Semaphore_Release`. -/
def Posted (s : State) : Prop := ∀ thr < s.nextThreadID, s.stage thr ≠ .stopped

def Guard (s : State) (label : Label) (t : State) : Prop :=
  Present s label ∧ (Quiescent t → Posted t)

instance (s : State) : DecidablePred (Present s) := fun label =>
  match label with
  | .search cur =>
    match stage : s.stage cur with
    | .searching tid =>
      decidable_of_iff (tid = TID_ANY ∨ tid ∈ s.zombieQueue) (by simp [Present, stage])
    | .absent | .running | .queued | .exited | .stopped | .acquiring _ | .asleep _
    | .removing _ _ | .retrying _ => isTrue (by simp [Present, stage])
  | .remove cur =>
    match stage : s.stage cur with
    | .removing _ thr =>
      decidable_of_iff (thr ∈ s.zombieQueue ∧ s.exitValue thr < 2 ^ 32) (by simp [Present, stage])
    | .absent | .running | .queued | .exited | .stopped | .acquiring _ | .asleep _
    | .searching _ | .retrying _ => isTrue (by simp [Present, stage])
  | .create _ | .exit _ _ | .post _ | .tick _ | .wait _ _ | .acquire _ | .retry _ => isTrue trivial

instance (s : State) (label : Label) (t : State) : Decidable (Guard s label t) :=
  inferInstanceAs (Decidable (_ ∧ (_ → ∀ thr < t.nextThreadID, _)))

structure Started (s : State) : Prop where
  thread : s.nextThreadID = 1 ∧ ∀ thr, s.stage thr = if thr = 0 then .running else .absent
  queue : s.zombieQueue = [] ∧ s.reaped = []
  sema : s.sema = semaphore_Init 0

/-- A zombie, on `zombieQueue` or taken from it. -/
def Stage.exiting : Stage → Bool
  | .queued | .exited | .stopped => true
  | _ => false

/-- The stages that account for one zombie that `count` does not show: its post is missing, or
the thread has taken a unit and has neither reaped a zombie for it nor given it back. -/
def Stage.owed : Stage → Nat
  | .queued | .stopped | .searching _ | .removing _ _ | .retrying _ => 1
  | _ => 0

def owed (s : State) : Nat := ∑ thr ∈ Finset.range s.nextThreadID, (s.stage thr).owed

structure Shape (s : State) : Prop where
  below : ∀ thr, s.stage thr ≠ .absent → thr < s.nextThreadID
  nodup : (s.zombieQueue ++ s.reaped).Nodup
  exiting : ∀ thr ∈ s.zombieQueue ++ s.reaped, (s.stage thr).exiting = true
  waiters : s.sema.waiters.Nodup
  asleep : ∀ thr ∈ s.sema.waiters, ∃ tid, s.stage thr = .asleep tid
  found : ∀ cur tid thr, s.stage cur = .removing tid thr →
    thr ∈ s.zombieQueue ++ s.reaped ∧ (tid = TID_ANY ∨ thr = tid)

structure Inv (s : State) : Prop where
  shape : Shape s
  room : s.nextThreadID ≤ s.reaped.length + THREAD_REGION
  nonneg : 0 ≤ s.sema.count
  account : s.sema.count + owed s = s.zombieQueue.length

section

variable {s t : State} {cur : Nat} {stage : Stage}

theorem goto_stage (s : State) (cur : Nat) (stage : Stage) (thr : Nat) :
    (s.goto cur stage).stage thr = if thr = cur then stage else s.stage thr := by
  by_cases same : thr = cur <;> simp [State.goto, same]

theorem owed_goto (s : State) {cur : Nat} (inside : cur < s.nextThreadID) (stage : Stage) :
    owed (s.goto cur stage) + (s.stage cur).owed = owed s + stage.owed := by
  have member : cur ∈ Finset.range s.nextThreadID := Finset.mem_range.mpr inside
  have others : ∑ thr ∈ (Finset.range s.nextThreadID).erase cur, ((s.goto cur stage).stage thr).owed =
      ∑ thr ∈ (Finset.range s.nextThreadID).erase cur, (s.stage thr).owed := by
    refine Finset.sum_congr rfl fun thr other => ?_
    rw [goto_stage, if_neg (Finset.mem_erase.mp other).1]
  have before := Finset.add_sum_erase _ (fun thr => (s.stage thr).owed) member
  have after := Finset.add_sum_erase _ (fun thr => ((s.goto cur stage).stage thr).owed) member
  have own : ((s.goto cur stage).stage cur).owed = stage.owed := by rw [goto_stage, if_pos rfl]
  unfold owed
  show ∑ thr ∈ Finset.range s.nextThreadID, ((s.goto cur stage).stage thr).owed + _ = _
  omega

theorem Inv.zombies_lt (inv : Inv s) : s.zombieQueue.length ≤ THREAD_REGION := by
  have inside : s.zombieQueue ++ s.reaped ⊆ range s.nextThreadID := by
    intro thr member
    refine mem_range.mpr (inv.shape.below thr ?_)
    intro absent
    have := inv.shape.exiting thr member
    rw [absent] at this
    cases this
  have short := (subperm_of_subset inv.shape.nodup inside).length_le
  rw [length_append, length_range] at short
  have := inv.room
  omega

theorem Shape.awake (shape : Shape s) (awake : ∀ tid, s.stage cur ≠ .asleep tid) :
    cur ∉ s.sema.waiters := by
  intro member
  obtain ⟨tid, sleeps⟩ := shape.asleep cur member
  exact awake tid sleeps

theorem Shape.goto (shape : Shape s) (stage : Stage) (lives : s.stage cur ≠ .absent)
    (away : cur ∉ s.sema.waiters) (kept : (s.stage cur).exiting = true → stage.exiting = true)
    (found : ∀ tid thr, stage = .removing tid thr →
      thr ∈ s.zombieQueue ++ s.reaped ∧ (tid = TID_ANY ∨ thr = tid)) : Shape (s.goto cur stage) where
  below := by
    intro thr present
    rw [goto_stage] at present
    split at present
    · rename_i same
      rw [same]
      exact shape.below cur lives
    · exact shape.below thr present
  nodup := shape.nodup
  exiting := by
    intro thr member
    rw [goto_stage]
    split
    · rename_i same
      exact kept (same ▸ shape.exiting thr member)
    · exact shape.exiting thr member
  waiters := shape.waiters
  asleep := by
    intro thr member
    have other : thr ≠ cur := fun same => away (same ▸ member)
    rw [goto_stage, if_neg other]
    exact shape.asleep thr member
  found := by
    intro x tid thr removing
    rw [goto_stage] at removing
    split at removing
    · exact found tid thr removing
    · exact shape.found x tid thr removing

/-- `Semaphore_Release` adds one to `count`, and moves at most a thread that sleeps. -/
structure Released (s t : State) : Prop where
  shape : Shape t
  count : t.sema.count = s.sema.count + 1
  owed : owed t = owed s
  same : t.nextThreadID = s.nextThreadID ∧ t.zombieQueue = s.zombieQueue ∧ t.reaped = s.reaped
  stage : ∀ thr, (∀ tid, s.stage thr ≠ .asleep tid) → t.stage thr = s.stage thr

section

variable (inv : Inv s)
include inv

theorem Inv.release (room : s.sema.count < s.zombieQueue.length) : Released s s.release := by
  have few := inv.zombies_lt
  have nonneg := inv.nonneg
  have shape := inv.shape
  have wrapped : wrap32 (s.sema.count + 1) = s.sema.count + 1 := by
    refine wrap32_of_lt (by omega) ?_
    unfold THREAD_REGION at few
    omega
  cases list : s.sema.waiters with
  | nil =>
    have result : s.release = { s with sema := ⟨s.sema.count + 1, []⟩ } := by
      simp only [State.release, semaphore_Release, list, State.wake, wrapped]
    rw [result]
    refine ⟨⟨shape.below, shape.nodup, shape.exiting, nodup_nil, ?_, shape.found⟩,
      rfl, rfl, ⟨rfl, rfl, rfl⟩, fun _ _ => rfl⟩
    intro thr member
    cases member
  | cons woken rest =>
    have waiters := shape.waiters
    rw [list] at waiters
    obtain ⟨fresh, distinct⟩ := nodup_cons.mp waiters
    obtain ⟨tid, sleeps⟩ := shape.asleep woken (list ▸ mem_cons_self)
    have popped : Shape { s with sema := ⟨s.sema.count + 1, rest⟩ } :=
      ⟨shape.below, shape.nodup, shape.exiting, distinct,
        fun thr member => shape.asleep thr (list ▸ mem_cons_of_mem _ member), shape.found⟩
    have result : s.release =
        { s with sema := ⟨s.sema.count + 1, rest⟩ }.goto woken (.acquiring tid) := by
      simp only [State.release, semaphore_Release, list, State.wake, wrapped, sleeps]
    have lives : s.stage woken ≠ .absent := by
      rw [sleeps]
      intro same
      cases same
    have share := owed_goto s (shape.below woken lives) (.acquiring tid)
    rw [sleeps] at share
    rw [result]
    refine ⟨popped.goto _ lives fresh ?_ (by rintro _ _ ⟨⟩), rfl, share, ⟨rfl, rfl, rfl⟩, ?_⟩
    · intro exiting
      change (s.stage woken).exiting = true at exiting
      rw [sleeps] at exiting
      cases exiting
    · intro thr awake
      have other : thr ≠ woken := fun woke => awake tid (woke ▸ sleeps)
      rw [goto_stage, if_neg other]

theorem Inv.goto {before : Stage} (here : s.stage cur = before)
    (lives : before ≠ .absent) (awake : ∀ tid, before ≠ .asleep tid)
    (kept : before.exiting = true → stage.exiting = true)
    (found : ∀ tid thr, stage = .removing tid thr →
      thr ∈ s.zombieQueue ++ s.reaped ∧ (tid = TID_ANY ∨ thr = tid))
    (share : stage.owed = before.owed) : Inv (s.goto cur stage) := by
  subst here
  refine ⟨inv.shape.goto stage lives (inv.shape.awake awake) kept found, inv.room, inv.nonneg, ?_⟩
  have shares := owed_goto s (inv.shape.below cur lives) stage
  have account := inv.account
  have same : owed (s.goto cur stage) = owed s := by omega
  rw [same]
  exact account

theorem Inv.give {before : Stage} (here : s.stage cur = before)
    (lives : before ≠ .absent) (awake : ∀ tid, before ≠ .asleep tid)
    (kept : before.exiting = true → stage.exiting = true)
    (free : ∀ tid thr, stage ≠ .removing tid thr)
    (taken : before.owed = 1) (given : stage.owed = 0) : Inv (s.release.goto cur stage) := by
  subst here
  have inside := inv.shape.below cur lives
  have account := inv.account
  have nonneg := inv.nonneg
  have own := owed_goto s inside .absent
  have released := inv.release (by
    change owed _ + _ = owed s + 0 at own
    omega)
  have here := released.stage cur awake
  obtain ⟨next, queue, reaped⟩ := released.same
  have shares := owed_goto s.release (next ▸ inside) stage
  have count := released.count
  have total := released.owed
  rw [here] at shares
  refine ⟨released.shape.goto stage (here ▸ lives) (released.shape.awake (here ▸ awake))
    (here ▸ kept) (fun tid thr removing => absurd removing (free tid thr)), ?_, ?_, ?_⟩
  · show s.release.nextThreadID ≤ s.release.reaped.length + _
    rw [next, reaped]
    exact inv.room
  · show 0 ≤ s.release.sema.count
    omega
  · show s.release.sema.count + _ = (s.release.zombieQueue.length : Int)
    rw [queue]
    omega

theorem Inv.create (room : s.nextThreadID < s.reaped.length + THREAD_REGION) :
    Inv ({ s with nextThreadID := s.nextThreadID + 1 }.goto s.nextThreadID .running) := by
  have unborn : s.stage s.nextThreadID = .absent := by
    by_contra present
    exact lt_irrefl _ (inv.shape.below _ present)
  have grown : owed { s with nextThreadID := s.nextThreadID + 1 } = owed s := by
    unfold owed
    show ∑ thr ∈ Finset.range (s.nextThreadID + 1), (s.stage thr).owed = _
    rw [Finset.sum_range_succ, unborn]
    rfl
  have shares := owed_goto { s with nextThreadID := s.nextThreadID + 1 }
    (lt_succ_self s.nextThreadID) .running
  have shape := inv.shape
  have lists : ∀ thr ∈ s.zombieQueue ++ s.reaped, thr ≠ s.nextThreadID := by
    intro thr member same
    have := shape.exiting thr member
    rw [same, unborn] at this
    cases this
  refine ⟨⟨?_, shape.nodup, ?_, shape.waiters, ?_, ?_⟩, room, inv.nonneg, ?_⟩
  · intro thr present
    rw [goto_stage] at present
    split at present
    · rename_i same
      rw [same]
      exact lt_succ_self _
    · exact lt_succ_of_lt (shape.below thr present)
  · intro thr member
    rw [goto_stage, if_neg (lists thr member)]
    exact shape.exiting thr member
  · intro thr member
    obtain ⟨tid, sleeps⟩ := shape.asleep thr member
    have other : thr ≠ s.nextThreadID := by
      intro same
      rw [same, unborn] at sleeps
      cases sleeps
    rw [goto_stage, if_neg other]
    exact ⟨tid, sleeps⟩
  · intro x tid thr removing
    rw [goto_stage] at removing
    split at removing
    · cases removing
    · exact shape.found x tid thr removing
  · have account := inv.account
    change _ + (s.stage s.nextThreadID).owed = _ + 0 at shares
    rw [unborn, grown] at shares
    change _ + 0 = _ + 0 at shares
    show s.sema.count + (_ : Int) = s.zombieQueue.length
    omega

theorem Inv.exit (runs : s.stage cur = .running) (status : Nat) :
    Inv ({ s with
      exitValue := Function.update s.exitValue cur status
      zombieQueue := s.zombieQueue ++ [cur] }.goto cur .queued) := by
  have shape := inv.shape
  have lives : s.stage cur ≠ .absent := by
    rw [runs]
    nofun
  have alive : cur ∉ s.zombieQueue ++ s.reaped := by
    intro member
    have := shape.exiting cur member
    rw [runs] at this
    cases this
  have shares := owed_goto s (shape.below cur lives) .queued
  have moved : Shape (s.goto cur .queued) :=
    shape.goto _ lives (shape.awake (by rw [runs]; nofun)) (fun _ => rfl) (by nofun)
  have lists : (s.zombieQueue ++ [cur] ++ s.reaped).Perm (cur :: (s.zombieQueue ++ s.reaped)) := by
    rw [append_assoc]
    exact perm_middle
  refine ⟨⟨moved.below, ?_, ?_, moved.waiters, moved.asleep, ?_⟩, inv.room, inv.nonneg, ?_⟩
  · exact lists.nodup_iff.mpr (nodup_cons.mpr ⟨alive, shape.nodup⟩)
  · intro thr member
    rcases mem_cons.mp (lists.mem_iff.mp member) with rfl | old
    · show ((s.goto thr .queued).stage thr).exiting = true
      rw [goto_stage, if_pos rfl]
      rfl
    · exact moved.exiting thr old
  · intro x tid thr removing
    obtain ⟨member, named⟩ := moved.found x tid thr removing
    exact ⟨lists.mem_iff.mpr (mem_cons_of_mem _ member), named⟩
  · have account := inv.account
    rw [runs] at shares
    change _ + 0 = _ + 1 at shares
    show s.sema.count + (owed (s.goto cur .queued) : Int) = ((s.zombieQueue ++ [cur]).length : Int)
    rw [length_append, length_singleton]
    push_cast
    omega

theorem Inv.acquire {tid : Nat} (calls : s.stage cur = .acquiring tid)
    {acquired : Bool} {sema : Sema} (pass : semaphore_Acquire cur s.sema = (acquired, sema)) :
    Inv ({ s with sema := sema }.goto cur (if acquired then .searching tid else .asleep tid)) := by
  have shape := inv.shape
  have account := inv.account
  have lives : s.stage cur ≠ .absent := by
    rw [calls]
    nofun
  have away : cur ∉ s.sema.waiters := shape.awake (by rw [calls]; nofun)
  have kept : ∀ stage : Stage, (s.stage cur).exiting = true → stage.exiting = true := by
    intro stage exiting
    rw [calls] at exiting
    cases exiting
  have shares := fun stage => owed_goto s (shape.below cur lives) stage
  rw [calls] at shares
  unfold semaphore_Acquire at pass
  split at pass
  · rename_i available
    cases pass
    have moved := shape.goto (.searching tid) lives away (kept _) (by nofun)
    refine ⟨⟨moved.below, moved.nodup, moved.exiting, moved.waiters, moved.asleep, moved.found⟩,
      inv.room, ?_, ?_⟩
    · show 0 ≤ s.sema.count - 1
      omega
    · have share := shares (.searching tid)
      change _ + 0 = _ + 1 at share
      show s.sema.count - 1 + (owed (s.goto cur (.searching tid)) : Int) = s.zombieQueue.length
      omega
  · cases pass
    have moved := shape.goto (.asleep tid) lives away (kept _) (by nofun)
    refine ⟨⟨moved.below, moved.nodup, moved.exiting, nodup_snoc shape.waiters away, ?_,
      moved.found⟩, inv.room, inv.nonneg, ?_⟩
    · intro thr member
      rcases mem_append.mp member with old | new
      · exact moved.asleep thr old
      · refine ⟨tid, ?_⟩
        show (s.goto cur (.asleep tid)).stage thr = _
        rw [goto_stage, if_pos (mem_singleton.mp new)]
    · have share := shares (.asleep tid)
      change _ + 0 = _ + 0 at share
      show s.sema.count + (owed (s.goto cur (.asleep tid)) : Int) = s.zombieQueue.length
      omega

theorem Inv.remove {tid thr : Nat} (calls : s.stage cur = .removing tid thr)
    (member : thr ∈ s.zombieQueue) :
    Inv ({ s with zombieQueue := s.zombieQueue.erase thr, reaped := thr :: s.reaped }.goto
      cur .running) := by
  have shape := inv.shape
  have account := inv.account
  have lives : s.stage cur ≠ .absent := by
    rw [calls]
    nofun
  have moved := shape.goto .running lives (shape.awake (by rw [calls]; nofun))
    (by rw [calls]; nofun) (by nofun)
  have shares := owed_goto s (shape.below cur lives) .running
  rw [calls] at shares
  have lists : (s.zombieQueue.erase thr ++ thr :: s.reaped).Perm (s.zombieQueue ++ s.reaped) :=
    perm_middle.trans ((perm_cons_erase member).symm.append_right s.reaped)
  refine ⟨⟨moved.below, lists.nodup_iff.mpr shape.nodup, ?_, moved.waiters, moved.asleep, ?_⟩,
    ?_, inv.nonneg, ?_⟩
  · exact fun x zombie => moved.exiting x (lists.mem_iff.mp zombie)
  · intro x y z removing
    obtain ⟨zombie, named⟩ := moved.found x y z removing
    exact ⟨lists.mem_iff.mpr zombie, named⟩
  · have := inv.room
    show s.nextThreadID ≤ (thr :: s.reaped).length + _
    rw [length_cons]
    omega
  · change _ + 1 = _ + 0 at shares
    have some : 0 < s.zombieQueue.length := length_pos_of_mem member
    show s.sema.count + (owed (s.goto cur .running) : Int) = ((s.zombieQueue.erase thr).length : Int)
    rw [length_erase_of_mem member]
    omega

end

theorem thread_Wait_ok {tid thr : Nat} {zombieQueue : List Nat}
    (found : thread_Wait tid zombieQueue = .ok thr) :
    thr ∈ zombieQueue ∧ (tid = TID_ANY ∨ thr = tid) := by
  unfold thread_Wait at found
  split at found
  · rename_i any
    split at found
    · cases found
    · rename_i first
      cases found
      exact ⟨mem_of_mem_head? first, .inl any⟩
  · split at found
    · cases found
    · rename_i first
      cases found
      exact ⟨mem_of_find?_eq_some first, .inr (by simpa using find?_some first)⟩

theorem thread_Wait_error {tid status : Nat} {zombieQueue : List Nat}
    (missed : thread_Wait tid zombieQueue = .error status) :
    (tid = TID_ANY ∧ status = SYSCALL_PACK EAGAIN 0) ∨
      (tid ≠ TID_ANY ∧ tid ∉ zombieQueue ∧ status = 0) := by
  unfold thread_Wait at missed
  split at missed
  · rename_i any
    split at missed
    · cases missed
      exact .inl ⟨any, rfl⟩
    · cases missed
  · rename_i named
    split at missed
    · rename_i none
      cases missed
      refine .inr ⟨named, ?_, rfl⟩
      intro member
      have := find?_eq_none.mp none tid member
      simp at this
    · cases missed

theorem wake_reaped (s : State) (woken : Option Nat) : (s.wake woken).reaped = s.reaped := by
  unfold State.wake
  split
  · rfl
  · split <;> rfl

theorem errcode_pack_eq_zero (value : Nat) :
    SYSCALL_ERRCODE (SYSCALL_PACK 0 value) = 0 ↔ value < 2 ^ 32 := by
  have packed : SYSCALL_PACK 0 value = value := by simp [SYSCALL_PACK]
  rw [packed, SYSCALL_ERRCODE, shiftRight_eq_div_pow]
  omega

theorem finish_reaped (s : State) (cur tid status : Nat) :
    (s.finish cur tid status).reaped = s.reaped := by
  unfold State.finish
  split <;> rfl

theorem Inv.search (inv : Inv s) {tid : Nat} (calls : s.stage cur = .searching tid)
    (moved : apply s (.search cur) = some t) (present : tid = TID_ANY ∨ tid ∈ s.zombieQueue) :
    Inv t ∧ t.reaped = s.reaped ∧ t.returned = none := by
  simp only [apply, calls] at moved
  split at moved
  · rename_i thr look
    cases moved
    obtain ⟨member, named⟩ := thread_Wait_ok look
    refine ⟨inv.goto calls nofun nofun nofun ?_ rfl, rfl, rfl⟩
    intro tid' thr' same
    cases same
    exact ⟨mem_append_left _ member, named⟩
  · rename_i status look
    cases moved
    rcases thread_Wait_error look with ⟨_, rfl⟩ | ⟨named, missing, _⟩
    · have again : s.finish cur tid (SYSCALL_PACK EAGAIN 0) = s.goto cur (.retrying tid) :=
        if_neg (by decide)
      rw [again]
      exact ⟨inv.goto calls nofun nofun nofun nofun rfl, rfl, rfl⟩
    · exact absurd present (not_or.mpr ⟨named, missing⟩)

theorem Inv.reaps (inv : Inv s) {tid thr : Nat} (calls : s.stage cur = .removing tid thr)
    (moved : apply s (.remove cur) = some t)
    (present : thr ∈ s.zombieQueue ∧ s.exitValue thr < 2 ^ 32) : Inv t ∧ Served s t := by
  obtain ⟨member, small⟩ := present
  have code := (errcode_pack_eq_zero _).mpr small
  have value : SYSCALL_VALUE (SYSCALL_PACK 0 (s.exitValue thr)) = s.exitValue thr := by
    simp only [SYSCALL_PACK, SYSCALL_VALUE]
    simpa using small
  simp only [apply, calls, State.finish, code] at moved
  rw [if_pos (by decide)] at moved
  cases moved
  have kept := inv.remove calls member
  refine ⟨⟨⟨kept.shape.below, kept.shape.nodup, kept.shape.exiting, kept.shape.waiters,
    kept.shape.asleep, kept.shape.found⟩, kept.room, kept.nonneg, kept.account⟩, ?_⟩
  obtain ⟨_, named⟩ := inv.shape.found cur tid thr calls
  have once : thr ∉ s.reaped := (nodup_append'.mp inv.shape.nodup).2.2 member
  exact ⟨tid, _, thr, rfl, .inr named, code, value, member, rfl, once, rfl⟩

theorem Inv.step (inv : Inv s) {label : Label} (moved : apply s label = some t)
    (present : Present s label) : Inv t ∧ (t.reaped = s.reaped ∧ t.returned = none ∨ Served s t) := by
  cases label with
  | create cur =>
    simp only [apply] at moved
    split at moved
    · rename_i allowed
      cases moved
      exact ⟨inv.create allowed.2, .inl ⟨rfl, rfl⟩⟩
    · cases moved
  | exit cur status =>
    simp only [apply] at moved
    split at moved
    · rename_i allowed
      cases moved
      exact ⟨inv.exit allowed.1 status, .inl ⟨rfl, rfl⟩⟩
    · cases moved
  | post cur =>
    simp only [apply] at moved
    split at moved
    · rename_i queued
      cases moved
      exact ⟨inv.give queued nofun nofun (fun _ => rfl) nofun rfl rfl,
        .inl ⟨wake_reaped _ _, rfl⟩⟩
    · cases moved
  | tick cur =>
    simp only [apply] at moved
    split at moved
    · rename_i queued
      cases moved
      exact ⟨inv.goto queued nofun nofun (fun _ => rfl) nofun rfl, .inl ⟨rfl, rfl⟩⟩
    · cases moved
  | wait cur tid =>
    simp only [apply] at moved
    split at moved
    · rename_i running
      cases moved
      exact ⟨inv.goto running nofun nofun nofun nofun rfl, .inl ⟨rfl, rfl⟩⟩
    · cases moved
  | acquire cur =>
    simp only [apply] at moved
    split at moved
    · rename_i tid calls
      cases moved
      exact ⟨inv.acquire calls rfl, .inl ⟨rfl, rfl⟩⟩
    · cases moved
  | search cur =>
    cases calls : s.stage cur with
    | searching tid =>
      simp only [Present, calls] at present
      obtain ⟨kept, same⟩ := inv.search calls moved present
      exact ⟨kept, .inl same⟩
    | _ => simp [apply, calls] at moved
  | remove cur =>
    cases calls : s.stage cur with
    | removing tid thr =>
      simp only [Present, calls] at present
      obtain ⟨kept, served⟩ := inv.reaps calls moved present
      exact ⟨kept, .inr served⟩
    | _ => simp [apply, calls] at moved
  | retry cur =>
    simp only [apply] at moved
    split at moved
    · rename_i tid calls
      cases moved
      exact ⟨inv.give calls nofun nofun nofun nofun rfl rfl, .inl ⟨wake_reaped _ _, rfl⟩⟩
    · cases moved

theorem not_served {label : Label} (moved : apply s label = some t) (missed : ¬ Present s label) :
    ¬ (t.reaped = s.reaped ∧ t.returned = none ∨ Served s t) := by
  cases label with
  | search cur =>
    cases calls : s.stage cur with
    | searching tid =>
      simp only [Present, calls, not_or] at missed
      obtain ⟨named, missing⟩ := missed
      have look : thread_Wait tid s.zombieQueue = .error 0 := by
        cases look : thread_Wait tid s.zombieQueue with
        | ok thr =>
          obtain ⟨member, any | rfl⟩ := thread_Wait_ok look
          · exact absurd any named
          · exact absurd member missing
        | error status =>
          rcases thread_Wait_error look with ⟨any, _⟩ | ⟨_, _, rfl⟩
          · exact absurd any named
          · rfl
      simp only [apply, calls, look] at moved
      cases moved
      rintro (⟨_, none⟩ | ⟨tid', status, thr, _, _, _, _, _, _, _, grown⟩)
      · cases none
      · rw [finish_reaped] at grown
        exact absurd (congrArg length grown) (by simp)
    | _ => simp [apply, calls] at moved
  | remove cur =>
    cases calls : s.stage cur with
    | removing tid thr =>
      simp only [Present, calls] at missed
      simp only [apply, calls] at moved
      cases moved
      rw [finish_reaped]
      rintro (⟨same, _⟩ | ⟨tid', status, thr', returned, _, code, _, member, _, fresh, grown⟩)
      · exact absurd (congrArg length same) (by simp)
      · rw [finish_reaped] at grown
        obtain ⟨rfl, _⟩ := cons.inj grown
        refine missed ⟨member, ?_⟩
        unfold State.finish at returned
        split at returned
        · cases returned
          exact (errcode_pack_eq_zero _).mp code
        · cases returned
    | _ => simp [apply, calls] at moved
  | create cur => exact absurd trivial missed
  | exit cur status => exact absurd trivial missed
  | post cur => exact absurd trivial missed
  | tick cur => exact absurd trivial missed
  | wait cur tid => exact absurd trivial missed
  | acquire cur => exact absurd trivial missed
  | retry cur => exact absurd trivial missed

theorem Inv.counted_iff (inv : Inv s) (quiet : Quiescent s) :
    s.sema.count = s.zombieQueue.length ↔ Posted s := by
  have account := inv.account
  have nothing : owed s = 0 ↔ Posted s := by
    unfold owed Posted
    rw [Finset.sum_eq_zero_iff]
    refine forall_congr' fun thr => ?_
    rw [Finset.mem_range]
    refine imp_congr_right fun inside => ?_
    have resting := quiet thr inside
    cases stage : s.stage thr <;> rw [stage] at resting <;> simp_all [Stage.owed, Stage.resting]
  rw [← nothing]
  omega

end

theorem Started.inv {s : State} (started : Started s) : Inv s := by
  obtain ⟨next, stage⟩ := started.thread
  obtain ⟨queue, reaped⟩ := started.queue
  have sema := started.sema
  have waiters : s.sema.waiters = [] := by
    rw [sema]
    rfl
  refine ⟨⟨?_, ?_, ?_, ?_, ?_, ?_⟩, ?_, ?_, ?_⟩
  · intro thr present
    rw [stage] at present
    split at present
    · omega
    · exact absurd rfl present
  · rw [queue, reaped]
    exact nodup_nil
  · rw [queue, reaped]
    nofun
  · rw [waiters]
    exact nodup_nil
  · rw [waiters]
    nofun
  · intro cur tid thr removing
    rw [stage] at removing
    split at removing <;> cases removing
  · rw [next, reaped]
    decide
  · rw [sema]
    decide
  · have nothing : owed s = 0 := by
      simp [owed, next, stage, Stage.owed]
    rw [nothing, sema, queue]
    rfl

/-- In every run of a process, the waits are served and the semaphore counts the zombies
exactly when every wait by `tid` finds its thread on the queue at its first look, every thread
that was found is removed by the wait that found it, with an exit value of at most 32 bits, and
no thread is switched away from between `Sched_SetZombie` and `Semaphore_Release` for good. -/
theorem thread_wait_iff_present {s : State} (started : Started s) (labels : List Label) :
    Along apply (fun s _ t => Good s t) s labels ↔ Along apply Guard s labels := by
  refine along_iff Inv ?_ ?_ started.inv labels
  · intro s label t inv moved guarded
    obtain ⟨kept, served⟩ := inv.step moved guarded.1
    exact ⟨⟨served, fun quiet => (kept.counted_iff quiet).mpr (guarded.2 quiet)⟩, kept⟩
  · intro s label t inv moved refused good
    by_cases present : Present s label
    · obtain ⟨kept, _⟩ := inv.step moved present
      exact refused ⟨present, fun quiet => (kept.counted_iff quiet).mp (good.counted quiet)⟩
    · exact not_served moved present good.served

def firstThread : State where
  nextThreadID := 1
  stage thr := if thr = 0 then .running else .absent
  exitValue _ := 0
  zombieQueue := []
  sema := semaphore_Init 0
  reaped := []
  returned := none

theorem firstThread_started : Started firstThread := ⟨⟨rfl, fun _ => rfl⟩, ⟨rfl, rfl⟩, rfl⟩

def joins : List Label :=
  [.create 0, .wait 0 1, .acquire 0, .exit 1 7, .post 1, .acquire 0, .search 0, .remove 0]

theorem thread_wait_iff_present_joins :
    Started firstThread ∧ Along apply (fun s _ t => Good s t) firstThread joins ∧
      ((joins.foldlM apply firstThread).bind (·.returned)) = some (1, SYSCALL_PACK 0 7) :=
  ⟨firstThread_started, (thread_wait_iff_present firstThread_started joins).mpr (by decide +kernel),
    by decide +kernel⟩

/-- A wait for thread 1 returns 0 when thread 2 exits, a wait for thread 0 does when thread 1
exits, and a thread that is switched away from before its post is never counted. -/
theorem thread_wait_misses :
    ¬ Along apply (fun s _ t => Good s t) firstThread
        [.create 0, .create 0, .wait 0 1, .exit 2 7, .post 2, .acquire 0, .search 0] ∧
      ¬ Along apply (fun s _ t => Good s t) firstThread
        [.create 0, .exit 1 7, .post 1, .wait 0 0, .acquire 0, .search 0] ∧
      ¬ Along apply (fun s _ t => Good s t) firstThread [.create 0, .exit 1 7, .tick 1] := by
  have returns : ∀ s t, Good s t → t.returned ≠ none → t.reaped ≠ s.reaped := by
    intro s t good returned same
    rcases good.served with ⟨_, none⟩ | ⟨_, _, thr, _, _, _, _, _, _, _, grown⟩
    · exact returned none
    · rw [same] at grown
      exact absurd (congrArg length grown) (by simp)
  refine ⟨fun along => ?_, fun along => ?_, fun along => ?_⟩
  · exact absurd (along.mono fun s _ t => returns s t) (by decide +kernel)
  · exact absurd (along.mono fun s _ t => returns s t) (by decide +kernel)
  · exact absurd (along.mono fun s _ t good => good.counted) (by decide +kernel)

end BoringOs.ThreadWait
