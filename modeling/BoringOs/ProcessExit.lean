import BoringOs.Lib.Runs
import BoringOs.Thread

/-! `Sched_SetZombie` of `sys/kern/sched.c` between the creation, the exit and the reaping of the
process's threads. `Mutex_Lock` and `Mutex_Unlock` have no body in this kernel, so the second look
of `Sched_SetZombie` at `proc->threads` has no effect. -/

namespace BoringOs.ProcessExit

open Runs Threads Function List Option

/-- How far a thread is in `Syscall_ThreadExit` or `Syscall_Exit`. -/
inductive Stage where
  | running
  /-- Behind the test of `proc->threads`. -/
  | checked
  /-- On `zombieQueue`, or taken from it. -/
  | zombie
  /-- Behind its own `Thread_Release`. -/
  | released
  deriving DecidableEq

structure State where
  pid : Nat
  proc : Process
  stage : Nat → Stage
  zombieState : Bool
  childrenList : List Nat
  zombieProc : List Nat

inductive Label where
  /-- A running thread creates another one. -/
  | create (cur : Nat)
  /-- `Sched_Current` and the first part of `Sched_SetZombie`. -/
  | check (cur : Nat)
  /-- The rest of `Sched_SetZombie`. -/
  | queue (cur : Nat)
  /-- `Thread_Release` by the thread that exits. -/
  | release (cur : Nat)
  /-- `Thread_Wait` by another thread. -/
  | reap (cur thr : Nat)

def Running (s : State) (cur : Nat) : Prop := cur ∈ s.proc.threadList ∧ s.stage cur = .running

instance (s : State) (cur : Nat) : Decidable (Running s cur) := inferInstanceAs (Decidable (_ ∧ _))

def State.goto (s : State) (thr : Nat) (stage : Stage) : State :=
  { s with stage := Function.update s.stage thr stage }

/-- The process goes from its parent's `childrenList` to `zombieProc`. -/
def moveToZombies (s : State) : State :=
  { s with
    zombieState := true
    childrenList := s.childrenList.erase s.pid
    zombieProc := s.zombieProc ++ [s.pid] }

def apply (s : State) : Label → Option State
  | .create cur =>
    if Running s cur then
      let (thr, proc) := thread_Create s.proc
      some ({ s with proc := proc }.goto thr .running)
    else none
  | .check cur =>
    if Running s cur then
      match thread_Retain cur s.proc with
      | none => none
      | some proc =>
        let t := { s with proc := proc }
        some ((if t.proc.threads = 1 then moveToZombies t else t).goto cur .checked)
    else none
  | .queue cur =>
    if s.stage cur = .checked then
      some ({ s with proc := insertZombie cur s.proc }.goto cur .zombie)
    else none
  | .release cur =>
    if s.stage cur = .zombie then
      (thread_Release cur s.proc).map (fun proc => { s with proc := proc }.goto cur .released)
    else none
  | .reap cur thr =>
    if Running s cur ∧ thr ∈ s.proc.zombieQueue then
      (reapZombie thr s.proc).map (fun proc => { s with proc := proc })
    else none

/-- The process is a zombie exactly when no thread of it runs, and has been moved once. -/
structure Good (s : State) : Prop where
  early : (∃ thr, Running s thr) →
    s.zombieState = false ∧ s.childrenList.count s.pid = 1 ∧ s.zombieProc.count s.pid = 0
  late : (¬ ∃ thr, Running s thr) →
    s.zombieState = true ∧ s.childrenList.count s.pid = 0 ∧ s.zombieProc.count s.pid = 1

/-- When the last running thread exits, all others have been destroyed. -/
def Guard (s : State) : Label → Prop
  | .check cur =>
    (∀ thr ∈ s.proc.threadList, s.stage thr = .running → thr = cur) → s.proc.threadList = [cur]
  | _ => True

instance (s : State) : DecidablePred (Guard s) := fun label =>
  match label with
  | .check _ => inferInstanceAs (Decidable ((∀ thr ∈ s.proc.threadList, _) → _))
  | .create _ | .queue _ | .release _ | .reap _ _ => isTrue trivial

structure Started (s : State) : Prop where
  thread : s.proc.threads = 1 ∧ s.proc.threadList = [0] ∧ s.proc.nextThreadID = 1 ∧
    s.proc.zombieQueue = [] ∧ ∀ thr, s.proc.refCount thr = if thr = 0 then 1 else 0
  stage : ∀ thr, s.stage thr = .running
  parent : s.zombieState = false ∧ s.childrenList.count s.pid = 1 ∧ s.zombieProc.count s.pid = 0

structure Inv (s : State) : Prop where
  proc : s.proc.Inv
  queued : ∀ thr ∈ s.proc.zombieQueue, thr < s.proc.nextThreadID ∧ s.stage thr ≠ .running
  exiting : ∀ thr, s.stage thr = .checked → thr < s.proc.nextThreadID
  good : Good s

section

variable {s t : State}

variable {cur thr : Nat} {proc : Process}

theorem Good.congr (good : Good s) (running : ∀ thr, Running t thr ↔ Running s thr)
    (same : t.pid = s.pid ∧ t.zombieState = s.zombieState ∧ t.childrenList = s.childrenList ∧
      t.zombieProc = s.zombieProc) : Good t := by
  obtain ⟨pid, zombie, children, moved⟩ := same
  have some : (∃ thr, Running t thr) ↔ ∃ thr, Running s thr := exists_congr running
  constructor
  · intro exists'
    rw [pid, zombie, children, moved]
    exact good.early (some.mp exists')
  · intro none
    rw [pid, zombie, children, moved]
    exact good.late (fun exists' => none (some.mpr exists'))

theorem running_release {stage : Nat → Stage} (stopped : s.stage thr ≠ .running)
    (list : proc.threadList = s.proc.threadList.erase thr ∨ proc.threadList = s.proc.threadList)
    (stages : ∀ x, stage x = .running ↔ s.stage x = .running) (x : Nat) :
    Running { s with proc := proc, stage := stage } x ↔ Running s x := by
  unfold Running
  simp only [stages]
  refine and_congr_left (fun runs => ?_)
  rcases list with gone | same
  · rw [gone, mem_erase_of_ne]
    rintro rfl
    exact stopped runs
  · rw [same]

theorem Inv.create (inv : Inv s) (moved : apply s (.create cur) = some t) : Inv t := by
  simp only [apply, ite_none_right_eq_some, some.injEq] at moved
  obtain ⟨running, rfl⟩ := moved
  obtain ⟨zombie, children, zombies⟩ := inv.good.early ⟨cur, running⟩
  have older : ∀ thr, thr < s.proc.nextThreadID → thr ≠ s.proc.nextThreadID :=
    fun thr before => ne_of_lt before
  refine ⟨inv.proc.create, ?_, ?_, ?_, ?_⟩
  · intro thr member
    obtain ⟨before, stopped⟩ := inv.queued thr member
    refine ⟨Nat.lt_succ_of_lt before, ?_⟩
    simp only [State.goto, thread_Create]
    rwa [update_of_ne (older thr before)]
  · intro thr checked
    by_cases new : thr = s.proc.nextThreadID
    · simp [State.goto, thread_Create, new] at checked
    · simp only [State.goto, thread_Create, update_of_ne new] at checked
      exact Nat.lt_succ_of_lt (inv.exiting thr checked)
  · exact fun _ => ⟨zombie, children, zombies⟩
  · intro none
    refine absurd ⟨s.proc.nextThreadID, ?_, ?_⟩ none
    · simp [State.goto, thread_Create]
    · simp [State.goto, thread_Create]

theorem Inv.checked (inv : Inv s) (moved : apply s (.check cur) = some t) :
    Running s cur ∧ ∃ proc : Process, proc.Inv ∧ proc.threadList = s.proc.threadList ∧
      proc.zombieQueue = s.proc.zombieQueue ∧ proc.nextThreadID = s.proc.nextThreadID ∧
      t = (if s.proc.threadList = [cur] then moveToZombies { s with proc := proc }
        else { s with proc := proc }).goto cur .checked := by
  simp only [apply, ite_none_right_eq_some] at moved
  obtain ⟨running, ran⟩ := moved
  cases retained : thread_Retain cur s.proc with
  | none => simp [retained] at ran
  | some proc =>
    obtain ⟨kept, list, threads, queue, next, _, _⟩ := inv.proc.retain retained
    simp only [retained, some.injEq] at ran
    refine ⟨running, proc, kept, list, queue, next, ?_⟩
    have single : proc.threads = 1 ↔ s.proc.threadList = [cur] := by
      rw [kept.count, list, length_eq_one_iff]
      constructor
      · rintro ⟨only, whole⟩
        have member := running.1
        rw [whole, mem_singleton] at member
        rw [whole, member]
      · exact fun whole => ⟨cur, whole⟩
    rw [← ran]
    simp only [single]

theorem running_goto (s t : State) {stage : Stage} (stopped : stage ≠ .running)
    (list : t.proc.threadList = s.proc.threadList) (stages : t.stage = s.stage) (thr : Nat) :
    Running (t.goto cur stage) thr ↔ Running s thr ∧ thr ≠ cur := by
  unfold Running State.goto
  rw [list, stages]
  by_cases self : thr = cur
  · simp [self, stopped]
  · simp [self]

section

variable (inv : Inv s)
include inv

theorem Inv.check (moved : apply s (.check cur) = some t)
    (guarded : Guard s (.check cur)) : Inv t := by
  obtain ⟨running, proc, kept, list, queue, next, rfl⟩ := inv.checked moved
  obtain ⟨zombie, children, zombies⟩ := inv.good.early ⟨cur, running⟩
  have below : cur < proc.nextThreadID := by
    rw [next]
    exact inv.proc.below cur running.1
  have stages : ∀ x, update s.stage cur .checked x = .running → s.stage x = .running := by
    intro x runs
    by_cases self : x = cur
    · simp [self] at runs
    · rwa [update_of_ne self] at runs
  have queued : ∀ x ∈ proc.zombieQueue, x < proc.nextThreadID ∧
      update s.stage cur .checked x ≠ .running := by
    intro x member
    rw [queue] at member
    rw [next]
    exact ⟨(inv.queued x member).1, fun runs => (inv.queued x member).2 (stages x runs)⟩
  have exiting : ∀ x, update s.stage cur .checked x = .checked → x < proc.nextThreadID := by
    intro x checked
    by_cases self : x = cur
    · rwa [self]
    · rw [update_of_ne self] at checked
      rw [next]
      exact inv.exiting x checked
  by_cases whole : s.proc.threadList = [cur]
  · rw [if_pos whole]
    refine ⟨kept, queued, exiting, ?_, ?_⟩
    · rintro ⟨thr, runs⟩
      obtain ⟨⟨member, _⟩, other⟩ := (running_goto s _ (by decide) list (by rfl) thr).mp runs
      rw [whole, mem_singleton] at member
      exact absurd member other
    · intro _
      refine ⟨rfl, ?_, ?_⟩
      · show (s.childrenList.erase s.pid).count s.pid = 0
        rw [count_erase_self, children]
      · show (s.zombieProc ++ [s.pid]).count s.pid = 1
        rw [count_append, zombies, count_singleton_self]
  · rw [if_neg whole]
    refine ⟨kept, queued, exiting, fun _ => ⟨zombie, children, zombies⟩, ?_⟩
    intro none
    refine absurd (guarded ?_) whole
    intro thr member runs
    by_contra other
    exact none ⟨thr, (running_goto s _ (by decide) list (by rfl) thr).mpr ⟨⟨member, runs⟩, other⟩⟩

theorem Inv.breaks (moved : apply s (.check cur) = some t)
    (refused : ¬ Guard s (.check cur)) : ¬ Good t := by
  obtain ⟨running, proc, kept, list, queue, next, rfl⟩ := inv.checked moved
  obtain ⟨zombie, children, zombies⟩ := inv.good.early ⟨cur, running⟩
  obtain ⟨last, others⟩ := Classical.not_imp.mp refused
  rw [if_neg others]
  intro good
  have none : ¬ ∃ thr, Running ({ s with proc := proc }.goto cur .checked) thr := by
    rintro ⟨thr, runs⟩
    obtain ⟨before, other⟩ := (running_goto s _ (by decide) list (by rfl) thr).mp runs
    exact other (last thr before.1 before.2)
  have moved : s.zombieState = true := (good.late none).1
  rw [zombie] at moved
  cases moved

theorem Inv.queue (moved : apply s (.queue cur) = some t) : Inv t := by
  simp only [apply, ite_none_right_eq_some, some.injEq] at moved
  obtain ⟨checked, rfl⟩ := moved
  have stages : ∀ x, update s.stage cur .zombie x = .running ↔ s.stage x = .running := by
    intro x
    by_cases self : x = cur
    · simp [self, checked]
    · rw [update_of_ne self]
  refine ⟨⟨inv.proc.nodup, inv.proc.count, inv.proc.listed, inv.proc.below⟩, ?_, ?_, ?_⟩
  · intro thr member
    have stopped : thr < s.proc.nextThreadID ∧ s.stage thr ≠ .running := by
      rcases mem_append.mp member with old | new
      · exact inv.queued thr old
      · obtain rfl := mem_singleton.mp new
        exact ⟨inv.exiting thr checked, by rw [checked]; decide⟩
    exact ⟨stopped.1, fun runs => stopped.2 ((stages thr).mp runs)⟩
  · intro thr exiting
    by_cases self : thr = cur
    · simp [State.goto, self] at exiting
    · simp only [State.goto, update_of_ne self] at exiting
      exact inv.exiting thr exiting
  · refine inv.good.congr ?_ ⟨rfl, rfl, rfl, rfl⟩
    intro thr
    exact and_congr_right (fun _ => stages thr)

theorem Inv.drop (stopped : s.stage thr ≠ .running) {queue : List Nat}
    (fewer : ∀ x ∈ queue, x ∈ s.proc.zombieQueue)
    (ran : thread_Release thr { s.proc with zombieQueue := queue } = some proc) {stage : Nat → Stage}
    (stages : ∀ x, stage x = .running ↔ s.stage x = .running)
    (exiting : ∀ x, stage x = .checked → s.stage x = .checked) :
    Inv { s with proc := proc, stage := stage } := by
  have before : Process.Inv { s.proc with zombieQueue := queue } :=
    ⟨inv.proc.nodup, inv.proc.count, inv.proc.listed, inv.proc.below⟩
  obtain ⟨kept, _, zombies, next, _, result⟩ := before.release ran
  refine ⟨kept, ?_, ?_, ?_⟩
  · intro x member
    rw [zombies] at member
    obtain ⟨low, still⟩ := inv.queued x (fewer x member)
    rw [next, Ne, stages]
    exact ⟨low, still⟩
  · intro x checked
    rw [next]
    exact inv.exiting x (exiting x checked)
  · refine inv.good.congr ?_ ⟨rfl, rfl, rfl, rfl⟩
    refine running_release stopped ?_ stages
    rcases result with ⟨_, list, _⟩ | ⟨_, list, _⟩
    · exact .inl list
    · exact .inr list

theorem Inv.release (moved : apply s (.release cur) = some t) : Inv t := by
  simp only [apply, ite_none_right_eq_some] at moved
  obtain ⟨zombie, ran⟩ := moved
  obtain ⟨proc, released, rfl⟩ := map_eq_some_iff.mp ran
  refine inv.drop (by rw [zombie]; decide) (fun x member => member) released ?_ ?_
  · intro x
    by_cases self : x = cur
    · simp [self, zombie]
    · rw [update_of_ne self]
  · intro x checked
    by_cases self : x = cur
    · simp [self] at checked
    · rwa [update_of_ne self] at checked

theorem Inv.reap (moved : apply s (.reap cur thr) = some t) : Inv t := by
  simp only [apply, ite_none_right_eq_some] at moved
  obtain ⟨⟨_, member⟩, ran⟩ := moved
  obtain ⟨proc, reaped, rfl⟩ := map_eq_some_iff.mp ran
  exact inv.drop (inv.queued thr member).2 (fun x inside => mem_of_mem_erase inside) reaped
    (fun _ => Iff.rfl) (fun _ checked => checked)

theorem Inv.step {label : Label} (moved : apply s label = some t)
    (guarded : Guard s label) : Inv t := by
  cases label with
  | create cur => exact inv.create moved
  | check cur => exact inv.check moved guarded
  | queue cur => exact inv.queue moved
  | release cur => exact inv.release moved
  | reap cur thr => exact inv.reap moved

end

theorem Started.inv (started : Started s) : Inv s := by
  obtain ⟨threads, list, next, zombies, refs⟩ := started.thread
  refine ⟨⟨?_, ?_, ?_, ?_⟩, ?_, ?_, fun _ => started.parent, ?_⟩
  · rw [list]
    exact nodup_singleton 0
  · rw [list, threads]
    rfl
  · intro thr
    rw [list, refs, mem_singleton]
    split <;> simp [*]
  · intro thr member
    rw [list, mem_singleton] at member
    rw [next, member]
    exact Nat.one_pos
  · rw [zombies]
    simp
  · intro thr checked
    rw [started.stage] at checked
    cases checked
  · intro none
    refine absurd ⟨0, ?_, started.stage 0⟩ none
    rw [list]
    exact mem_singleton.mpr rfl

/-- The process becomes a zombie at the exit of its last running thread exactly along the
runs in which all its other threads have been destroyed by then. -/
theorem process_exit_iff_reaped (started : Started s) (labels : List Label) :
    Along apply (fun _ _ t => Good t) s labels ↔ Along apply (fun s label _ => Guard s label) s labels := by
  refine along_iff Inv ?_ ?_ started.inv labels
  · intro s label t inv moved guarded
    have kept := inv.step moved guarded
    exact ⟨kept.good, kept⟩
  · intro s label t inv moved refused
    cases label with
    | check cur => exact inv.breaks moved refused
    | create | queue | release | reap => exact absurd trivial refused

end

def oneThread : State where
  pid := 5
  proc := ⟨fun thr => ⟨if thr = 0 then 1 else 0, 0⟩, 1, [0], [], 1, []⟩
  stage _ := .running
  zombieState := false
  childrenList := [5]
  zombieProc := []

theorem oneThread_started : Started oneThread := by
  exact ⟨⟨rfl, rfl, rfl, rfl, fun _ => rfl⟩, fun _ => rfl, rfl, rfl, rfl⟩

def joinThenExit : List Label :=
  [.create 0, .check 1, .queue 1, .release 1, .reap 0 1, .check 0, .queue 0, .release 0]

theorem process_exit_iff_reaped_join :
    (joinThenExit.foldlM apply oneThread).map (fun s => (s.zombieProc, s.childrenList)) = some ([5], []) ∧
      Along apply (fun _ _ t => Good t) oneThread joinThenExit :=
  ⟨by decide, (process_exit_iff_reaped oneThread_started joinThenExit).mpr (by decide +kernel)⟩

/-- Two threads exit and nobody reaps the first one: the process stays with the children. -/
theorem process_exit_missed :
    ([.create 0, .check 1, .queue 1, .release 1, .check 0, .queue 0, .release 0].foldlM apply
        oneThread).map (fun s => (s.zombieState, s.childrenList, s.zombieProc, s.stage 0, s.stage 1)) =
      some (false, [5], [], .released, .released) := by
  decide

end BoringOs.ProcessExit
