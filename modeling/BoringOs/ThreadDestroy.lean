import BoringOs.Sched
import BoringOs.Thread

/-! The destruction of a thread: `Syscall_ThreadExit` and `Syscall_Exit` of `sys/kern/syscall.c`
against `Thread_Wait` of `sys/kern/thread.c`. `Sched_SetZombie`, `Semaphore_Release`,
`Thread_Release` and `Sched_Scheduler` are steps of the thread that exits, and the timer interrupt
may come between any two of them. -/

namespace BoringOs.ThreadDestroy

open Runs Threads Function List Option
open Sched (Kernel sched_Scheduler sched_SetRunnable sched_SetWaiting sched_SetZombieState)

inductive Stage where
  | running
  /-- Behind `Sched_SetZombie`. -/
  | zombie
  /-- Behind `Semaphore_Release`. -/
  | posted
  /-- Behind its own `Thread_Release`. -/
  | released
  /-- Has called `Sched_Scheduler`. -/
  | left
  deriving DecidableEq

/-- A process and the CPUs. `reaped` are the threads that `Thread_Wait` has taken, `late` those
of them that had released themselves and left their CPU before, and `under` the threads
destroyed while they were `curProc` of a CPU. -/
structure System (Cpu : Type) where
  kernel : Kernel Cpu
  proc : Process
  stage : Nat → Stage
  reaped : Nat → Prop
  late : Nat → Prop
  under : Nat → Prop

inductive Label (Cpu : Type) where
  /-- The timer interrupt. -/
  | tick (cpu : Cpu)
  /-- A running thread goes to sleep, and a thread is set runnable. -/
  | sleep (epoch : Nat) (cpu : Cpu)
  | ready (epoch thr : Nat)
  /-- `Syscall_ThreadCreate`. -/
  | create (epoch : Nat) (cpu : Cpu)
  /-- The steps of `Syscall_ThreadExit` and, without `post`, of `Syscall_Exit`. -/
  | setZombie (cpu : Cpu)
  | post (cpu : Cpu)
  | release (cpu : Cpu)
  | leave (cpu : Cpu)
  /-- `Thread_Wait` takes a thread from `zombieQueue` and releases it. -/
  | reap (cpu : Cpu) (thr : Nat)

section

variable {Cpu : Type}

def System.current (s : System Cpu) (cpu : Cpu) : Nat := s.kernel.curProc cpu

def Away (s : System Cpu) (thr : Nat) : Prop := ∀ cpu, s.current cpu ≠ thr

/-- The thread has given up the reference of `Sched_Current`. -/
def Released (s : System Cpu) (thr : Nat) : Prop := s.stage thr = .released ∨ s.stage thr = .left

def System.goto (s : System Cpu) (thr : Nat) (stage : Stage) : System Cpu :=
  { s with stage := Function.update s.stage thr stage }

def System.drop (s : System Cpu) (thr : Nat) (proc : Process) : System Cpu :=
  { s with
    proc := proc
    under := fun x => s.under x ∨ x = thr ∧ proc.destroyed ≠ s.proc.destroyed ∧ ¬ Away s thr }

def apply [DecidableEq Cpu] (s : System Cpu) : Label Cpu → Option (System Cpu)
  | .tick cpu => (sched_Scheduler cpu s.kernel).map (fun kernel => { s with kernel := kernel })
  | .sleep epoch cpu =>
    if s.stage (s.current cpu) = .running then
      (sched_SetWaiting epoch (s.current cpu) s.kernel).map (fun kernel => { s with kernel := kernel })
    else none
  | .ready epoch thr =>
    if s.kernel.state thr = .null ∨ s.kernel.state thr = .waiting then
      (sched_SetRunnable epoch thr s.kernel).map (fun kernel => { s with kernel := kernel })
    else none
  | .create epoch cpu =>
    let (thr, proc) := thread_Create s.proc
    if s.stage (s.current cpu) = .running ∧ s.kernel.state thr = .null then
      (sched_SetRunnable epoch thr s.kernel).map (fun kernel => { s with kernel := kernel, proc := proc })
    else none
  | .setZombie cpu =>
    let cur := s.current cpu
    if s.stage cur = .running ∧ cur ∉ s.kernel.runnableQueue ∧ cur ∉ s.kernel.waitQueue then
      (thread_Retain cur s.proc).map (fun proc =>
        { s with
          kernel := sched_SetZombieState cur s.kernel
          proc := insertZombie cur proc }.goto cur .zombie)
    else none
  | .post cpu =>
    let cur := s.current cpu
    if s.stage cur = .zombie then some (s.goto cur .posted) else none
  | .release cpu =>
    let cur := s.current cpu
    if s.stage cur = .zombie ∨ s.stage cur = .posted then
      (thread_Release cur s.proc).map (fun proc => (s.drop cur proc).goto cur .released)
    else none
  | .leave cpu =>
    let cur := s.current cpu
    if s.stage cur = .released then
      (sched_Scheduler cpu s.kernel).map (fun kernel => { s with kernel := kernel }.goto cur .left)
    else none
  | .reap cpu thr =>
    if s.stage (s.current cpu) = .running ∧ thr ∈ s.proc.zombieQueue then
      (reapZombie thr s.proc).map (fun proc =>
        { s.drop thr proc with
          reaped := fun x => s.reaped x ∨ x = thr
          late := fun x => s.late x ∨ x = thr ∧ Released s thr ∧ Away s thr })
    else none

def Step [DecidableEq Cpu] (s : System Cpu) (label : Label Cpu) (t : System Cpu) : Prop :=
  apply s label = some t

/-- `Thread_Destroy` does not take the thread from under its own feet, and takes it once it
has been reaped and has left its CPU. -/
structure DestroyedSafely (s : System Cpu) (thr : Nat) : Prop where
  safe : ¬ s.under thr
  done : s.reaped thr → Away s thr → s.proc.destroyed.count thr = 1

/-- Threads that run, and nothing else yet. -/
structure Started (s : System Cpu) : Prop where
  proc : s.proc.Inv
  refs : ∀ thr, s.proc.refCount thr ≤ 1
  quiet : s.proc.zombieQueue = [] ∧ s.proc.destroyed = []
  stage : ∀ thr, s.stage thr = .running
  history : ∀ thr, ¬ s.reaped thr ∧ ¬ s.late thr ∧ ¬ s.under thr

end

section

variable {Cpu : Type}

variable {s t : Kernel Cpu} {thr epoch : Nat}

structure Quiet (s t : Kernel Cpu) : Prop where
  states : ∀ thr, s.state thr = .zombie → t.state thr = .zombie
  current : ∀ cpu thr, s.state thr = .zombie → t.curProc cpu = thr → s.curProc cpu = thr

theorem Quiet.of_update (state : Sched.SchedState)
    (alive : s.state thr ≠ .zombie) (states : t.state = update s.state thr state)
    (current : t.curProc = s.curProc) : Quiet s t := by
  refine ⟨?_, fun cpu x _ here => by rw [← current, here]⟩
  intro x zombie
  rw [states, update_of_ne]
  · exact zombie
  · rintro rfl
    exact alive zombie

theorem insertRunnable_same (ran : Sched.insertRunnable thr s = some t) :
    t.state = s.state ∧ t.curProc = s.curProc := by
  unfold Sched.insertRunnable at ran
  split at ran
  · cases ran
  · cases ran
    exact ⟨rfl, rfl⟩

theorem stopWaiting_same
    (ran : Sched.stopWaiting epoch thr s = some t) : t.state = s.state ∧ t.curProc = s.curProc := by
  unfold Sched.stopWaiting at ran
  split at ran
  · split at ran
    · cases ran
      refine ⟨?_, rfl⟩
      funext x
      by_cases self : x = thr <;> simp [Kernel.state, self]
    · cases ran
  · cases ran
    exact ⟨rfl, rfl⟩

theorem sched_SetRunnable_quiet (alive : s.state thr ≠ .zombie)
    (ran : sched_SetRunnable epoch thr s = some t) : Quiet s t := by
  unfold sched_SetRunnable at ran
  obtain ⟨u, stopped, inserted⟩ := bind_eq_some_iff.mp ran
  have ready : (Sched.readyProc thr s).state = s.state ∧ (Sched.readyProc thr s).curProc = s.curProc := by
    by_cases new : s.procState (s.thread thr).proc = .null
    · simp only [Sched.readyProc, new, ↓reduceIte, and_true]
      rfl
    · simp only [Sched.readyProc, new, ↓reduceIte, and_self]
  obtain ⟨uStates, uCurrent⟩ := stopWaiting_same stopped
  obtain ⟨tStates, tCurrent⟩ := insertRunnable_same inserted
  refine Quiet.of_update .runnable alive ?_ (tCurrent.trans (uCurrent.trans ready.2))
  rw [tStates, Sched.setState_state, uStates, ready.1]

theorem sched_SetWaiting_quiet (ran : sched_SetWaiting epoch thr s = some t) : Quiet s t := by
  unfold sched_SetWaiting at ran
  split at ran
  · rename_i runs
    obtain ⟨u, inserted, rfl⟩ := map_eq_some_iff.mp ran
    unfold Sched.insertWait at inserted
    split at inserted
    · cases inserted
    · cases inserted
      have alive : s.state thr ≠ .zombie := by
        rw [runs]
        decide
      refine Quiet.of_update .waiting alive ?_ rfl
      funext x
      by_cases self : x = thr <;> simp [Kernel.state, Kernel.setState, self]
  · cases ran

theorem sched_Scheduler_quiet [DecidableEq Cpu] {cpu : Cpu}
    (ran : sched_Scheduler cpu s = some t) : Quiet s t := by
  unfold sched_Scheduler at ran
  split at ran
  · split at ran
    · cases ran
      exact ⟨fun _ zombie => zombie, fun _ _ _ here => here⟩
    · cases ran
  · rename_i next rest queue
    split at ran
    · rename_i runnable
      dsimp only at ran
      generalize switched : ({ s with
        runnableQueue := rest
        curProc := update s.curProc cpu next
        thread := update s.thread next { s.thread next with
          schedState := .running
          ctxSwitches := (s.thread next).ctxSwitches + 1 } } : Kernel Cpu) = u at ran
      have states : u.state = update s.state next .running := by
        rw [← switched]
        funext x
        by_cases self : x = next <;> simp [Kernel.state, self]
      have current : u.curProc = update s.curProc cpu next := by rw [← switched]
      have first : Quiet s u := by
        refine ⟨?_, ?_⟩
        · intro x zombie
          rw [states, update_of_ne]
          · exact zombie
          · rintro rfl
            rw [runnable] at zombie
            cases zombie
        · intro c x zombie here
          rw [current] at here
          by_cases self : c = cpu
          · rw [self, update_self] at here
            rw [← here, runnable] at zombie
            cases zombie
          · rwa [update_of_ne self] at here
      split at ran
      · rename_i again
        obtain ⟨tStates, tCurrent⟩ := insertRunnable_same ran
        have second : Quiet u t := by
          refine Quiet.of_update .runnable (by rw [again]; decide) (tStates.trans (Sched.setState_state u _ _)) ?_
          exact tCurrent
        exact ⟨fun x zombie => second.states x (first.states x zombie), fun c x zombie here =>
          first.current c x zombie (second.current c x (first.states x zombie) here)⟩
      · cases ran
        exact first
    · cases ran

end

section

structure View where
  refCount : Nat
  stage : Stage
  queued : Nat
  destroyed : Nat
  reaped : Prop
  late : Prop
  under : Prop

/-- A thread has a reference of its own while it exits, and one of `zombieQueue` until it
is reaped. -/
def View.Ok (v : View) : Prop :=
  match v.stage with
  | .running => v.refCount ≤ 1 ∧ v.queued = 0 ∧ v.destroyed = 0 ∧ ¬ v.reaped ∧ ¬ v.late ∧ ¬ v.under
  | .zombie | .posted =>
    v.refCount = v.queued + 1 ∧ v.destroyed = 0 ∧ ¬ v.late ∧ ¬ v.under ∧
      (v.queued = 1 ∧ ¬ v.reaped ∨ v.queued = 0 ∧ v.reaped)
  | .released | .left =>
    v.refCount = v.queued ∧ v.destroyed + v.queued = 1 ∧
      (v.queued = 1 ∧ ¬ v.reaped ∧ ¬ v.late ∧ ¬ v.under ∨ v.queued = 0 ∧ v.reaped ∧ (v.under ↔ ¬ v.late))

variable {Cpu : Type} {s t : System Cpu} {thr : Nat}

def view (s : System Cpu) (thr : Nat) : View where
  refCount := s.proc.refCount thr
  stage := s.stage thr
  queued := s.proc.zombieQueue.count thr
  destroyed := s.proc.destroyed.count thr
  reaped := s.reaped thr
  late := s.late thr
  under := s.under thr

structure Inv (s : System Cpu) : Prop where
  proc : s.proc.Inv
  views : ∀ thr, (view s thr).Ok
  fresh : ∀ thr, s.proc.nextThreadID ≤ thr → s.stage thr = .running

structure Gone (s : System Cpu) : Prop where
  zombie : ∀ thr, s.stage thr ≠ .running → s.kernel.state thr = .zombie
  away : ∀ thr, s.late thr → s.stage thr ≠ .running ∧ Away s thr

theorem Inv.of_view (inv : Inv s) (proc : t.proc.Inv) (cur : Nat) (mine : (view t cur).Ok)
    (others : ∀ thr, thr ≠ cur → view t thr = view s thr)
    (fresh : ∀ thr, t.proc.nextThreadID ≤ thr → t.stage thr = .running) : Inv t := by
  refine ⟨proc, ?_, fresh⟩
  intro thr
  by_cases self : thr = cur
  · rw [self]
    exact mine
  · rw [others thr self]
    exact inv.views thr

theorem Inv.kernel (inv : Inv s) (kernel : Kernel Cpu) : Inv { s with kernel := kernel } :=
  ⟨inv.proc, inv.views, inv.fresh⟩

theorem fresh_goto (inv : Inv s) {cur : Nat} (exiting : s.stage cur ≠ .running) (stage : Stage) :
    ∀ thr, s.proc.nextThreadID ≤ thr → update s.stage cur stage thr = .running := by
  intro thr beyond
  rw [update_of_ne]
  · exact inv.fresh thr beyond
  · rintro rfl
    exact exiting (inv.fresh thr beyond)

theorem release_counts {proc u : Process} {cur : Nat} (inv : proc.Inv)
    (ran : thread_Release cur proc = some u) :
    u.Inv ∧ u.zombieQueue = proc.zombieQueue ∧ u.nextThreadID = proc.nextThreadID ∧
      proc.refCount cur ≠ 0 ∧ u.refCount cur = proc.refCount cur - 1 ∧
      (∀ thr, thr ≠ cur → u.refCount thr = proc.refCount thr) ∧
      (∀ thr, thr ≠ cur → u.destroyed.count thr = proc.destroyed.count thr) ∧
      (proc.refCount cur = 1 ∧ u.destroyed ≠ proc.destroyed ∧
          u.destroyed.count cur = proc.destroyed.count cur + 1 ∨
        proc.refCount cur ≠ 1 ∧ u.destroyed = proc.destroyed) := by
  obtain ⟨kept, held, queue, next, refs, result⟩ := inv.release ran
  have own := refs cur
  rw [if_pos rfl] at own
  refine ⟨kept, queue, next, held, own, ?_, ?_, ?_⟩
  · intro thr other
    rw [refs, if_neg other]
  · intro thr other
    rcases result with ⟨_, _, destroyed⟩ | ⟨_, _, destroyed⟩
    · rw [destroyed, count_append, count_singleton, beq_eq_false_iff_ne.mpr (Ne.symm other)]
      rfl
    · rw [destroyed]
  · rcases result with ⟨last, _, destroyed⟩ | ⟨more, _, destroyed⟩
    · refine .inl ⟨last, ?_, ?_⟩
      · rw [destroyed]
        simp
      · rw [destroyed, count_append, count_singleton_self]
    · exact .inr ⟨more, destroyed⟩

section

variable (inv : Inv s)
include inv

theorem Inv.setZombie {cur : Nat} (runs : s.stage cur = .running) {proc : Process}
    (ran : thread_Retain cur s.proc = some proc) (kernel : Kernel Cpu) :
    Inv ({ s with kernel := kernel, proc := insertZombie cur proc }.goto cur .zombie) := by
  obtain ⟨kept, list, _, queue, next, destroyed, refs⟩ := inv.proc.retain ran
  have held : s.proc.refCount cur ≠ 0 := by
    intro none
    simp [thread_Retain, none] at ran
  have member := (inv.proc.listed cur).mpr held
  have before := inv.views cur
  simp only [View.Ok, view, runs] at before
  obtain ⟨one, empty, alive, pending, early, safe⟩ := before
  have own := refs cur
  rw [if_pos rfl] at own
  refine inv.of_view (t := { s with kernel := kernel, proc := insertZombie cur proc }.goto cur .zombie)
    ⟨kept.nodup, kept.count, kept.listed, kept.below⟩ cur ?_ ?_ ?_
  · have stage : update s.stage cur Stage.zombie cur = .zombie := update_self ..
    have queued : (proc.zombieQueue ++ [cur]).count cur = 1 := by
      rw [queue, count_append, empty, count_singleton_self]
    have refs' : (insertZombie cur proc).refCount cur = 2 := by
      show proc.refCount cur = 2
      omega
    have gone : proc.destroyed.count cur = 0 := by rw [destroyed, alive]
    simp only [View.Ok, view, System.goto, stage, refs']
    exact ⟨by rw [insertZombie, queued], gone, early, safe, .inl ⟨queued, pending⟩⟩
  · intro thr other
    have refs' : (insertZombie cur proc).refCount thr = s.proc.refCount thr := by
      show proc.refCount thr = _
      rw [refs, if_neg other]
    have queued : (proc.zombieQueue ++ [cur]).count thr = s.proc.zombieQueue.count thr := by
      rw [queue, count_append, count_singleton, beq_eq_false_iff_ne.mpr (Ne.symm other)]
      rfl
    simp only [view, System.goto, refs', update_of_ne other]
    simp only [insertZombie, queued, destroyed]
  · intro thr beyond
    simp only [System.goto, insertZombie] at beyond ⊢
    rw [next] at beyond
    have below := inv.proc.below cur member
    rw [update_of_ne (by omega)]
    exact inv.fresh thr beyond

theorem Inv.goto {cur : Nat} {stage : Stage} (exiting : s.stage cur ≠ .running)
    (same : (view (s.goto cur stage) cur).Ok) (kernel : Kernel Cpu) :
    Inv ({ s with kernel := kernel }.goto cur stage) := by
  refine inv.of_view (t := { s with kernel := kernel }.goto cur stage) inv.proc cur same ?_
    (fresh_goto inv exiting stage)
  intro thr other
  simp only [view, System.goto, update_of_ne other]

theorem Inv.release {cur : Nat} (exiting : s.stage cur = .zombie ∨ s.stage cur = .posted)
    (current : ¬ Away s cur) {proc : Process} (ran : thread_Release cur s.proc = some proc) :
    Inv ((s.drop cur proc).goto cur .released) := by
  obtain ⟨kept, queue, next, held, refs, otherRefs, otherGone, result⟩ := release_counts inv.proc ran
  have before := inv.views cur
  have facts : s.proc.refCount cur = s.proc.zombieQueue.count cur + 1 ∧
      s.proc.destroyed.count cur = 0 ∧ ¬ s.late cur ∧ ¬ s.under cur ∧
      (s.proc.zombieQueue.count cur = 1 ∧ ¬ s.reaped cur ∨ s.proc.zombieQueue.count cur = 0 ∧ s.reaped cur) := by
    rcases exiting with here | here <;> simpa only [View.Ok, view, here] using before
  obtain ⟨count, alive, early, safe, cases'⟩ := facts
  have stopped : s.stage cur ≠ .running := by
    rcases exiting with here | here <;> rw [here] <;> decide
  refine inv.of_view (t := (s.drop cur proc).goto cur .released) kept cur ?_ ?_ ?_
  · simp only [View.Ok, view, System.goto, System.drop, update_self, queue, refs]
    rcases cases' with ⟨queued, pending⟩ | ⟨queued, reaped⟩
    · rcases result with ⟨last, _⟩ | ⟨_, destroyed⟩
      · omega
      · refine ⟨by omega, by rw [destroyed]; omega, .inl ⟨queued, pending, early, ?_⟩⟩
        rintro (old | ⟨_, changed, _⟩)
        · exact safe old
        · exact changed destroyed
    · rcases result with ⟨last, changed, destroyed⟩ | ⟨more, _⟩
      · refine ⟨by omega, by omega, .inr ⟨queued, reaped, ?_⟩⟩
        exact ⟨fun _ => early, fun _ => .inr ⟨trivial, changed, current⟩⟩
      · omega
  · intro thr other
    simp only [view, System.goto, System.drop, update_of_ne other, otherRefs thr other, queue,
      otherGone thr other, other, false_and, or_false]
  · intro thr beyond
    simp only [System.goto, System.drop] at beyond ⊢
    rw [next] at beyond
    exact fresh_goto inv stopped .released thr beyond

theorem Inv.reap (member : thr ∈ s.proc.zombieQueue) {proc : Process}
    (ran : reapZombie thr s.proc = some proc) :
    Inv { s.drop thr proc with
      reaped := fun x => s.reaped x ∨ x = thr
      late := fun x => s.late x ∨ x = thr ∧ Released s thr ∧ Away s thr } := by
  have inside : Process.Inv { s.proc with zombieQueue := s.proc.zombieQueue.erase thr } :=
    ⟨inv.proc.nodup, inv.proc.count, inv.proc.listed, inv.proc.below⟩
  obtain ⟨kept, queue, next, held, refs, otherRefs, otherGone, result⟩ := release_counts inside ran
  have before := inv.views thr
  have positive : 0 < s.proc.zombieQueue.count thr := count_pos_iff.mpr member
  have fewer : proc.zombieQueue.count thr = s.proc.zombieQueue.count thr - 1 := by
    rw [queue]
    exact count_erase_self
  have others : ∀ x, x ≠ thr → proc.zombieQueue.count x = s.proc.zombieQueue.count x := by
    intro x other
    rw [queue]
    exact count_erase_of_ne other
  have counted : Process.refCount { s.proc with zombieQueue := s.proc.zombieQueue.erase thr } thr =
    s.proc.refCount thr := rfl
  refine inv.of_view (t := { s.drop thr proc with
      reaped := fun x => s.reaped x ∨ x = thr
      late := fun x => s.late x ∨ x = thr ∧ Released s thr ∧ Away s thr }) kept thr ?_ ?_ ?_
  · cases stage : s.stage thr with
    | running =>
      simp only [View.Ok, view, stage] at before
      omega
    | zombie | posted =>
      simp only [View.Ok, view, stage] at before
      obtain ⟨count, alive, early, safe, cases'⟩ := before
      have unreleased : ¬ Released s thr := by
        unfold Released
        rw [stage]
        decide
      rcases result with ⟨last, _⟩ | ⟨_, destroyed⟩
      · omega
      · simp only [View.Ok, view, System.drop, stage]
        refine ⟨by omega, by rw [destroyed]; exact alive, ?_, ?_, .inr ⟨by omega, .inr trivial⟩⟩
        · rintro (old | ⟨_, released, _⟩)
          · exact early old
          · exact unreleased released
        · rintro (old | ⟨_, changed, _⟩)
          · exact safe old
          · exact changed destroyed
    | released | left =>
      simp only [View.Ok, view, stage] at before
      obtain ⟨count, alive, cases'⟩ := before
      have released : Released s thr := by
        unfold Released
        rw [stage]
        decide
      rcases cases' with ⟨queued, pending, early, safe⟩ | ⟨none, _⟩
      · rcases result with ⟨last, changed, destroyed⟩ | ⟨more, _⟩
        · have gone : proc.destroyed.count thr = 1 := by
            rw [destroyed]
            show s.proc.destroyed.count thr + 1 = 1
            omega
          simp only [View.Ok, view, System.drop, stage]
          refine ⟨by omega, by omega, .inr ⟨by omega, .inr trivial, ?_⟩⟩
          simp [early, safe, released, changed]
        · omega
      · omega
  · intro x other
    simp only [view, System.drop, otherRefs x other, others x other, otherGone x other, other, false_and,
      or_false]
    rfl
  · intro x beyond
    simp only [System.drop] at beyond ⊢
    rw [next] at beyond
    exact inv.fresh x beyond

theorem Inv.create (kernel : Kernel Cpu) :
    Inv { s with kernel := kernel, proc := (thread_Create s.proc).2 } := by
  have running := inv.fresh s.proc.nextThreadID le_rfl
  have before := inv.views s.proc.nextThreadID
  simp only [View.Ok, view, running] at before
  refine inv.of_view (t := { s with kernel := kernel, proc := (thread_Create s.proc).2 })
    inv.proc.create s.proc.nextThreadID ?_ ?_ ?_
  · simp only [View.Ok, view, running, thread_Create, Process.refCount, update_self]
    exact ⟨le_rfl, before.2⟩
  · intro thr other
    simp only [view, thread_Create, Process.refCount, update_of_ne other]
  · intro thr beyond
    exact inv.fresh thr (Nat.le_of_succ_le beyond)

end

theorem Gone.quiet (gone : Gone s) {kernel : Kernel Cpu} (quiet : Quiet s.kernel kernel) (proc : Process) :
    Gone { s with kernel := kernel, proc := proc } := by
  constructor
  · intro thr exiting
    exact quiet.states thr (gone.zombie thr exiting)
  · intro thr late
    obtain ⟨exiting, away⟩ := gone.away thr late
    refine ⟨exiting, ?_⟩
    intro cpu here
    exact away cpu (quiet.current cpu thr (gone.zombie thr exiting) here)

theorem Gone.goto (gone : Gone s) {cur : Nat} {stage : Stage} (exiting : s.stage cur ≠ .running)
    (still : stage ≠ .running) : Gone (s.goto cur stage) := by
  have same : ∀ thr, update s.stage cur stage thr ≠ .running ↔ s.stage thr ≠ .running := by
    intro thr
    by_cases self : thr = cur
    · simp [self, exiting, still]
    · rw [update_of_ne self]
  constructor
  · intro thr late
    exact gone.zombie thr ((same thr).mp late)
  · intro thr late
    obtain ⟨before, away⟩ := gone.away thr late
    exact ⟨(same thr).mpr before, away⟩

theorem Started.inv (started : Started s) : Inv s ∧ Gone s := by
  obtain ⟨zombies, destroyed⟩ := started.quiet
  refine ⟨⟨started.proc, ?_, fun thr _ => started.stage thr⟩, ?_, ?_⟩
  · intro thr
    simp only [View.Ok, view, started.stage thr, zombies, destroyed]
    exact ⟨started.refs thr, rfl, rfl, started.history thr⟩
  · intro thr exiting
    exact absurd (started.stage thr) exiting
  · intro thr late
    exact absurd late (started.history thr).2.1

end

section

variable {Cpu : Type} [DecidableEq Cpu] {s t : System Cpu}

theorem step_inv (inv : Inv s) (gone : Gone s) {label : Label Cpu} (moved : Step s label t) :
    Inv t ∧ Gone t := by
  cases label with
  | tick cpu =>
    obtain ⟨kernel, ran, rfl⟩ := map_eq_some_iff.mp moved
    exact ⟨inv.kernel kernel, gone.quiet (sched_Scheduler_quiet ran) s.proc⟩
  | sleep epoch cpu =>
    obtain ⟨_, result⟩ := ite_none_right_eq_some.mp moved
    obtain ⟨kernel, ran, rfl⟩ := map_eq_some_iff.mp result
    exact ⟨inv.kernel kernel, gone.quiet (sched_SetWaiting_quiet ran) s.proc⟩
  | ready epoch thr =>
    obtain ⟨asleep, result⟩ := ite_none_right_eq_some.mp moved
    obtain ⟨kernel, ran, rfl⟩ := map_eq_some_iff.mp result
    have alive : s.kernel.state thr ≠ .zombie := by
      rcases asleep with state | state <;> rw [state] <;> decide
    exact ⟨inv.kernel kernel, gone.quiet (sched_SetRunnable_quiet alive ran) s.proc⟩
  | create epoch cpu =>
    obtain ⟨⟨_, null⟩, result⟩ := ite_none_right_eq_some.mp moved
    obtain ⟨kernel, ran, rfl⟩ := map_eq_some_iff.mp result
    have alive : s.kernel.state s.proc.nextThreadID ≠ .zombie := by
      rw [show s.kernel.state s.proc.nextThreadID = .null from null]
      decide
    exact ⟨inv.create kernel, gone.quiet (sched_SetRunnable_quiet alive ran) _⟩
  | setZombie cpu =>
    obtain ⟨⟨runs, _⟩, result⟩ := ite_none_right_eq_some.mp moved
    obtain ⟨proc, ran, rfl⟩ := map_eq_some_iff.mp result
    refine ⟨inv.setZombie runs ran _, ?_, ?_⟩
    · intro thr exiting
      simp only [System.goto, sched_SetZombieState, Sched.setState_state] at exiting ⊢
      by_cases self : thr = s.current cpu
      · rw [self, update_self]
      · rw [update_of_ne self] at exiting ⊢
        exact gone.zombie thr exiting
    · intro thr late
      obtain ⟨exiting, away⟩ := gone.away thr late
      have other : thr ≠ s.current cpu := fun same => away cpu same.symm
      refine ⟨?_, away⟩
      simp only [System.goto, update_of_ne other]
      exact exiting
  | post cpu =>
    obtain ⟨zombie, result⟩ := ite_none_right_eq_some.mp moved
    cases result
    have exiting : s.stage (s.current cpu) ≠ .running := by
      rw [zombie]
      decide
    have before := inv.views (s.current cpu)
    refine ⟨inv.goto exiting ?_ s.kernel, gone.goto exiting (by decide)⟩
    simp only [View.Ok, view, zombie] at before
    simpa only [View.Ok, view, System.goto, update_self] using before
  | release cpu =>
    obtain ⟨stage, result⟩ := ite_none_right_eq_some.mp moved
    obtain ⟨proc, ran, rfl⟩ := map_eq_some_iff.mp result
    have exiting : s.stage (s.current cpu) ≠ .running := by
      rcases stage with here | here <;> rw [here] <;> decide
    refine ⟨inv.release stage (fun away => away cpu rfl) ran, ?_⟩
    have dropped : Gone (s.drop (s.current cpu) proc) := ⟨gone.zombie, gone.away⟩
    exact dropped.goto exiting (by decide)
  | leave cpu =>
    obtain ⟨released, result⟩ := ite_none_right_eq_some.mp moved
    obtain ⟨kernel, ran, rfl⟩ := map_eq_some_iff.mp result
    have exiting : s.stage (s.current cpu) ≠ .running := by
      rw [released]
      decide
    have before := inv.views (s.current cpu)
    refine ⟨inv.goto exiting ?_ kernel, ?_⟩
    · simp only [View.Ok, view, released] at before
      simpa only [View.Ok, view, System.goto, update_self] using before
    · have next := gone.quiet (sched_Scheduler_quiet ran) s.proc
      exact next.goto exiting (by decide)
  | reap cpu thr =>
    obtain ⟨⟨_, member⟩, result⟩ := ite_none_right_eq_some.mp moved
    obtain ⟨proc, ran, rfl⟩ := map_eq_some_iff.mp result
    refine ⟨inv.reap member ran, gone.zombie, ?_⟩
    rintro x (late | ⟨rfl, released, away⟩)
    · exact gone.away x late
    · have stopped : s.stage x ≠ .running := by
        rcases released with here | here <;> rw [here] <;> decide
      exact ⟨stopped, away⟩

/-- At any time, the destruction of a thread has been safe exactly if it was reaped after its
own `Thread_Release` and its last switch, or is on its way to them. -/
theorem thread_destroyed_safely_iff (started : Started s) {labels : List (Label Cpu)}
    (ran : Run Step s labels t) (thr : Nat) :
    (DestroyedSafely t thr ↔ (t.reaped thr → t.late thr ∨ ¬ Away t thr ∧ ¬ Released t thr)) ∧
      (t.late thr → Away t thr) := by
  obtain ⟨inv, gone⟩ := ran.invariant (fun s => Inv s ∧ Gone s)
    (fun s label t both moved => step_inv both.1 both.2 moved) started.inv
  refine ⟨?_, fun late => (gone.away thr late).2⟩
  have facts := inv.views thr
  rw [View.Ok] at facts
  cases stage : t.stage thr with
  | running =>
    simp only [view, stage] at facts
    obtain ⟨_, _, _, pending, _, safe⟩ := facts
    exact ⟨fun _ reaped => absurd reaped pending, fun _ => ⟨safe, fun reaped => absurd reaped pending⟩⟩
  | zombie | posted =>
    simp only [view, stage] at facts
    obtain ⟨_, alive, early, safe, _⟩ := facts
    have unreleased : ¬ Released t thr := by
      unfold Released
      rw [stage]
      decide
    constructor
    · intro destroyed reaped
      refine .inr ⟨fun away => ?_, unreleased⟩
      have once := destroyed.done reaped away
      omega
    · intro onCpu
      refine ⟨safe, fun reaped away => ?_⟩
      rcases onCpu reaped with late | ⟨here, _⟩
      · exact absurd late early
      · exact absurd away here
  | released | left =>
    simp only [view, stage] at facts
    have released : Released t thr := by
      unfold Released
      rw [stage]
      decide
    obtain ⟨_, counts, cases'⟩ := facts
    rcases cases' with ⟨_, pending, _, safe⟩ | ⟨none, reaped, exactly⟩
    · exact ⟨fun _ reaped => absurd reaped pending, fun _ => ⟨safe, fun reaped => absurd reaped pending⟩⟩
    · constructor
      · intro destroyed _
        exact .inl (not_not.mp (fun early => destroyed.safe (exactly.mpr early)))
      · intro condition
        rcases condition reaped with late | ⟨_, unreleased⟩
        · exact ⟨fun under => exactly.mp under late, fun _ _ => by omega⟩
        · exact absurd released unreleased

end

instance (s : System (Fin 2)) (thr : Nat) : Decidable (Away s thr) :=
  inferInstanceAs (Decidable (∀ cpu, s.current cpu ≠ thr))

def twoThreads : System (Fin 2) where
  kernel := Sched.twoCpus
  proc := ⟨fun thr => ⟨if thr < 2 then 1 else 0, 0⟩, 2, [0, 1], [], 2, []⟩
  stage _ := .running
  reaped _ := False
  late _ := False
  under _ := False

theorem twoThreads_started : Started twoThreads := by
  refine ⟨⟨by decide, rfl, ?_, by decide⟩, ?_, ⟨rfl, rfl⟩, fun _ => rfl, fun _ => ⟨id, id, id⟩⟩
  · intro thr
    have member : thr ∈ [0, 1] ↔ thr < 2 := by
      simp
      omega
    simp only [twoThreads, Process.refCount, member]
    by_cases small : thr < 2 <;> simp [small]
  · intro thr
    simp only [twoThreads, Process.refCount]
    split <;> decide

theorem thread_destroyed_safely_iff_joined :
    ∃ t, Run Step twoThreads [.create 0 0, .setZombie 1, .post 1, .release 1, .leave 1, .reap 0 1] t ∧
      t.proc.destroyed = [1] ∧ DestroyedSafely t 1 := by
  obtain ⟨t, ran, destroyed, late⟩ : ∃ t, Run Step twoThreads
      [.create 0 0, .setZombie 1, .post 1, .release 1, .leave 1, .reap 0 1] t ∧
        t.proc.destroyed = [1] ∧ t.late 1 :=
    ⟨_, .cons rfl (.cons rfl (.cons rfl (.cons rfl (.cons rfl (.single rfl))))), rfl,
      .inr ⟨rfl, .inr rfl, by decide⟩⟩
  exact ⟨t, ran, destroyed, (thread_destroyed_safely_iff twoThreads_started ran 1).1.mpr
    (fun _ => .inl late)⟩

/-- Thread 0 reaps thread 1 as soon as `Semaphore_Release` has been called, and thread 1
destroys itself on its own stack. Or the timer takes the CPU from thread 1 for good before
its `Thread_Release`, and it is never destroyed. -/
theorem thread_destroyed_on_cpu :
    (∃ t, Run Step twoThreads [.setZombie 1, .post 1, .reap 0 1, .release 1] t ∧
        t.current 1 = 1 ∧ t.proc.destroyed = [1] ∧ t.under 1) ∧
      ∃ t, Run Step twoThreads [.create 0 0, .setZombie 1, .tick 1, .reap 0 1] t ∧
        t.reaped 1 ∧ Away t 1 ∧ t.proc.destroyed = [] := by
  constructor
  · refine ⟨_, .cons rfl (.cons rfl (.cons rfl (.single rfl))), rfl, rfl, ?_⟩
    exact .inr ⟨rfl, by decide, fun away => away 1 rfl⟩
  · exact ⟨_, .cons rfl (.cons rfl (.cons rfl (.single rfl))), .inr rfl, by decide, rfl⟩

end BoringOs.ThreadDestroy
