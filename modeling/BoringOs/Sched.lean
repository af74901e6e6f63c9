import BoringOs.Errno
import BoringOs.Lib.Runs
import Mathlib.Data.List.Count
import Mathlib.Data.List.Nodup

/-! The scheduler of `sys/kern/sched.c`. Every function holds `schedLock` and is one step. `none` is
a kernel that stops: a failed `ASSERT`, a removal of a thread that is not on the queue, or an
insertion of one whose link `schedQueue` is in use. -/

namespace BoringOs.Sched

open Runs Function List Option

abbrev ThreadId : Type := Nat

abbrev ProcId : Type := Nat

inductive SchedState where
  | null
  | runnable
  | running
  | waiting
  | zombie
  deriving DecidableEq

inductive ProcState where
  | null
  | ready
  | zombie
  deriving DecidableEq

structure Thread where
  proc : ProcId
  schedState : SchedState
  ctxSwitches : Nat
  waitTime : Nat
  waitStart : Nat

structure Kernel (Cpu : Type) where
  thread : ThreadId → Thread
  procState : ProcId → ProcState
  waitQueue : List ThreadId
  runnableQueue : List ThreadId
  curProc : Cpu → ThreadId

section

variable {Cpu : Type}

def Kernel.state (s : Kernel Cpu) (thr : ThreadId) : SchedState := (s.thread thr).schedState

/-- No thread is current on two CPUs, or current and on `runnableQueue`. -/
structure Kernel.Safe (s : Kernel Cpu) : Prop where
  single : ∀ c d, s.curProc c = s.curProc d → c = d
  unqueued : ∀ c, s.curProc c ∉ s.runnableQueue

def Kernel.setState (s : Kernel Cpu) (thr : ThreadId) (state : SchedState) : Kernel Cpu :=
  { s with thread := Function.update s.thread thr { s.thread thr with schedState := state } }

/-- `TAILQ_INSERT_TAIL(&runnableQueue, thr, schedQueue)`. -/
def insertRunnable (thr : ThreadId) (s : Kernel Cpu) : Option (Kernel Cpu) :=
  if thr ∈ s.runnableQueue ∨ thr ∈ s.waitQueue then none
  else some { s with runnableQueue := s.runnableQueue ++ [thr] }

/-- `TAILQ_INSERT_TAIL(&waitQueue, thr, schedQueue)`. -/
def insertWait (thr : ThreadId) (s : Kernel Cpu) : Option (Kernel Cpu) :=
  if thr ∈ s.runnableQueue ∨ thr ∈ s.waitQueue then none
  else some { s with waitQueue := s.waitQueue ++ [thr] }

/-- The part of `Sched_SetRunnable` for a thread that waits. -/
def stopWaiting (epoch : Nat) (thr : ThreadId) (s : Kernel Cpu) : Option (Kernel Cpu) :=
  if s.state thr = .waiting then
    if thr ∈ s.waitQueue then
      let t := s.thread thr
      some { s with
        thread := Function.update s.thread thr { t with
          waitTime := (t.waitTime + (word64 + epoch - t.waitStart)) % word64
          waitStart := 0 }
        waitQueue := s.waitQueue.erase thr }
    else none
  else some s

def readyProc (thr : ThreadId) (s : Kernel Cpu) : Kernel Cpu :=
  let proc := (s.thread thr).proc
  if s.procState proc = .null then
    { s with procState := Function.update s.procState proc .ready }
  else s

/-- `Sched_SetRunnable`, with the reading of `KTime_GetEpochNS`. -/
def sched_SetRunnable (epoch : Nat) (thr : ThreadId) (s : Kernel Cpu) : Option (Kernel Cpu) :=
  (stopWaiting epoch thr (readyProc thr s)).bind (fun s =>
    insertRunnable thr (s.setState thr .runnable))

def sched_SetWaiting (epoch : Nat) (thr : ThreadId) (s : Kernel Cpu) : Option (Kernel Cpu) :=
  if s.state thr = .running then
    (insertWait thr (s.setState thr .waiting)).map (fun s =>
      { s with thread := Function.update s.thread thr { s.thread thr with waitStart := epoch } })
  else none

def sched_SetZombieState (thr : ThreadId) (s : Kernel Cpu) : Kernel Cpu := s.setState thr .zombie

/-- `Sched_Scheduler` on a CPU, up to `Sched_Switch`. -/
def sched_Scheduler [DecidableEq Cpu] (cpu : Cpu) (s : Kernel Cpu) : Option (Kernel Cpu) :=
  match s.runnableQueue with
  | [] => if s.state (s.curProc cpu) = .running then some s else none
  | next :: rest =>
    if s.state next = .runnable then
      let prev := s.curProc cpu
      let t := s.thread next
      let s := { s with
        runnableQueue := rest
        curProc := Function.update s.curProc cpu next
        thread := Function.update s.thread next { t with
          schedState := .running
          ctxSwitches := t.ctxSwitches + 1 } }
      if s.state prev = .running then insertRunnable prev (s.setState prev .runnable) else some s
    else none

structure Agreement (s : Kernel Cpu) : Prop where
  runnable : ∀ thr, s.runnableQueue.count thr = if s.state thr = .runnable then 1 else 0
  waiting : ∀ thr, s.waitQueue.count thr = if s.state thr = .waiting then 1 else 0

end

/-! What the functions do to the states and the queues. -/

section

variable {Cpu : Type} {s : Kernel Cpu} {thr : ThreadId}

@[simp] theorem setState_state (s : Kernel Cpu) (thr : ThreadId) (state : SchedState) :
    (s.setState thr state).state = update s.state thr state := by
  funext x
  by_cases same : x = thr
  · subst same
    simp [Kernel.setState, Kernel.state]
  · simp [Kernel.setState, Kernel.state, update_of_ne same]

@[simp] theorem setState_runnableQueue (state : SchedState) :
    (s.setState thr state).runnableQueue = s.runnableQueue := rfl

@[simp] theorem setState_waitQueue (state : SchedState) :
    (s.setState thr state).waitQueue = s.waitQueue := rfl

theorem Agreement.mem_runnable (agreement : Agreement s) :
    thr ∈ s.runnableQueue ↔ s.state thr = .runnable := by
  rw [← count_pos_iff, agreement.runnable]
  split <;> simp [*]

theorem Agreement.mem_waiting (agreement : Agreement s) :
    thr ∈ s.waitQueue ↔ s.state thr = .waiting := by
  rw [← count_pos_iff, agreement.waiting]
  split <;> simp [*]

theorem insertRunnable_inserts (free : thr ∉ s.runnableQueue) (idle : thr ∉ s.waitQueue) :
    insertRunnable thr s = some { s with runnableQueue := s.runnableQueue ++ [thr] } :=
  if_neg (fun linked => linked.elim free idle)

theorem insertWait_inserts (free : thr ∉ s.runnableQueue) (idle : thr ∉ s.waitQueue) :
    insertWait thr s = some { s with waitQueue := s.waitQueue ++ [thr] } :=
  if_neg (fun linked => linked.elim free idle)

theorem stopWaiting_stops (thr : ThreadId) (agreement : Agreement s) (epoch : Nat) :
    ∃ t, stopWaiting epoch thr s = some t ∧ t.state = s.state ∧ t.curProc = s.curProc ∧
      t.runnableQueue = s.runnableQueue ∧ t.waitQueue = s.waitQueue.erase thr := by
  unfold stopWaiting
  by_cases waits : s.state thr = .waiting
  · rw [if_pos waits, if_pos (agreement.mem_waiting.mpr waits)]
    refine ⟨_, rfl, ?_, rfl, rfl, rfl⟩
    funext x
    by_cases same : x = thr
    · subst same
      simp [Kernel.state]
    · simp [Kernel.state, update_of_ne same]
  · rw [if_neg waits]
    have absent : thr ∉ s.waitQueue := fun member => waits (agreement.mem_waiting.mp member)
    exact ⟨s, rfl, rfl, rfl, rfl, (erase_of_not_mem absent).symm⟩

theorem erase_waiting (agreement : Agreement s) : thr ∉ s.waitQueue.erase thr := by
  have once : s.waitQueue.count thr ≤ 1 := by
    rw [agreement.waiting]
    split <;> omega
  rw [← count_pos_iff, count_erase_self]
  omega

theorem sched_SetRunnable_sets (agreement : Agreement s) (epoch : Nat)
    (fresh : s.state thr ≠ .runnable) :
    ∃ t, sched_SetRunnable epoch thr s = some t ∧
      t.state = update s.state thr .runnable ∧ t.curProc = s.curProc ∧
      t.runnableQueue = s.runnableQueue ++ [thr] ∧ t.waitQueue = s.waitQueue.erase thr := by
  unfold sched_SetRunnable
  generalize readied : readyProc thr s = r
  have same : r.state = s.state ∧ r.curProc = s.curProc ∧ r.runnableQueue = s.runnableQueue ∧
      r.waitQueue = s.waitQueue := by
    rw [← readied]
    unfold readyProc
    dsimp only
    split <;> exact ⟨rfl, rfl, rfl, rfl⟩
  obtain ⟨states, current, queue, waits⟩ := same
  have kept : Agreement r := by
    refine ⟨?_, ?_⟩
    · rw [states, queue]
      exact agreement.runnable
    · rw [states, waits]
      exact agreement.waiting
  obtain ⟨u, stopped, uStates, uCurrent, uQueue, uWaits⟩ := stopWaiting_stops thr kept epoch
  have free : thr ∉ (u.setState thr .runnable).runnableQueue := by
    rw [setState_runnableQueue, uQueue, queue, agreement.mem_runnable]
    exact fresh
  have idle : thr ∉ (u.setState thr .runnable).waitQueue := by
    rw [setState_waitQueue, uWaits]
    exact erase_waiting kept
  rw [stopped, bind_some, insertRunnable_inserts free idle]
  refine ⟨_, rfl, ?_, uCurrent.trans current, ?_, ?_⟩
  · rw [← states, ← uStates]
    exact setState_state u thr .runnable
  · rw [← queue, ← uQueue]
    rfl
  · rw [← waits, ← uWaits]
    rfl

theorem sched_SetWaiting_sets (agreement : Agreement s) (epoch : Nat)
    (runs : s.state thr = .running) :
    ∃ t, sched_SetWaiting epoch thr s = some t ∧
      t.state = update s.state thr .waiting ∧ t.curProc = s.curProc ∧
      t.runnableQueue = s.runnableQueue ∧ t.waitQueue = s.waitQueue ++ [thr] := by
  have free : thr ∉ s.runnableQueue := by
    rw [agreement.mem_runnable, runs]
    decide
  have idle : thr ∉ s.waitQueue := by
    rw [agreement.mem_waiting, runs]
    decide
  have inserted : insertWait thr (s.setState thr .waiting) = some _ := insertWait_inserts free idle
  rw [sched_SetWaiting, if_pos runs, inserted]
  refine ⟨_, rfl, ?_, rfl, rfl, rfl⟩
  rw [← setState_state]
  funext x
  by_cases same : x = thr
  · subst same
    simp [Kernel.state]
  · simp [Kernel.state, update_of_ne same]

end

theorem sched_Scheduler_switches {Cpu : Type} [DecidableEq Cpu] {s : Kernel Cpu}
    (agreement : Agreement s) (cpu : Cpu) {next : ThreadId} {rest : List ThreadId}
    (queue : s.runnableQueue = next :: rest) :
    let states := update s.state next .running
    let requeued := states (s.curProc cpu) = .running
    ∃ t, sched_Scheduler cpu s = some t ∧ t.curProc = update s.curProc cpu next ∧
      t.waitQueue = s.waitQueue ∧
      t.state = (if requeued then update states (s.curProc cpu) .runnable else states) ∧
      t.runnableQueue = if requeued then rest ++ [s.curProc cpu] else rest := by
  intro states requeued
  have first : s.state next = .runnable := agreement.mem_runnable.mp (by simp [queue])
  have once := agreement.runnable next
  rw [queue, first, count_cons_self] at once
  have removed : next ∉ rest := by
    rw [← count_pos_iff]
    simp at once
    omega
  unfold sched_Scheduler
  rw [queue]
  simp only [first, ↓reduceIte]
  generalize switched : ({ s with
    runnableQueue := rest
    curProc := update s.curProc cpu next
    thread := update s.thread next { s.thread next with
      schedState := .running
      ctxSwitches := (s.thread next).ctxSwitches + 1 } } : Kernel Cpu) = u
  have uStates : u.state = states := by
    rw [← switched]
    funext x
    by_cases same : x = next
    · subst same
      simp [Kernel.state, states]
    · simp [Kernel.state, states, update_of_ne same]
  have uQueue : u.runnableQueue = rest := by rw [← switched]
  have uWaits : u.waitQueue = s.waitQueue := by rw [← switched]
  have uCurrent : u.curProc = update s.curProc cpu next := by rw [← switched]
  rw [uStates]
  by_cases again : requeued
  · rw [if_pos again, if_pos again, if_pos again]
    -- the thread that ran was on no queue, or is the one just taken off
    have running : s.curProc cpu = next ∨ s.state (s.curProc cpu) = .running := by
      by_cases same : s.curProc cpu = next
      · exact .inl same
      · refine .inr ?_
        rw [← again]
        exact (update_of_ne same ..).symm
    have free : s.curProc cpu ∉ (u.setState (s.curProc cpu) .runnable).runnableQueue := by
      rw [setState_runnableQueue, uQueue]
      rcases running with same | runs
      · rw [same]
        exact removed
      · intro member
        have queued : s.curProc cpu ∈ s.runnableQueue := by
          rw [queue]
          exact mem_cons_of_mem _ member
        rw [agreement.mem_runnable, runs] at queued
        exact absurd queued (by decide)
    have idle : s.curProc cpu ∉ (u.setState (s.curProc cpu) .runnable).waitQueue := by
      rw [setState_waitQueue, uWaits, agreement.mem_waiting]
      rcases running with same | runs
      · rw [same, first]
        decide
      · rw [runs]
        decide
    rw [insertRunnable_inserts free idle]
    refine ⟨_, rfl, uCurrent, uWaits, ?_, ?_⟩
    · rw [← uStates]
      exact setState_state u _ .runnable
    · rw [← uQueue]
      rfl
  · rw [if_neg again, if_neg again, if_neg again]
    exact ⟨u, rfl, uCurrent, uWaits, uStates, uQueue⟩

section

variable {Cpu : Type}

/-- Queues that are empty; a thread runs, or is new. -/
structure Booted (s : Kernel Cpu) : Prop where
  runnableQueue : s.runnableQueue = []
  waitQueue : s.waitQueue = []
  states : ∀ thr, s.state thr = .running ∨ s.state thr = .null

theorem Booted.agreement {s : Kernel Cpu} (booted : Booted s) : Agreement s := by
  constructor
  · intro thr
    rw [booted.runnableQueue]
    rcases booted.states thr with state | state <;> simp [state]
  · intro thr
    rw [booted.waitQueue]
    rcases booted.states thr with state | state <;> simp [state]

variable {s t : Kernel Cpu} {thr : ThreadId}

theorem Agreement.setRunnable (agreement : Agreement s) (fresh : s.state thr ≠ .runnable)
    (states : t.state = update s.state thr .runnable)
    (queue : t.runnableQueue = s.runnableQueue ++ [thr])
    (waits : t.waitQueue = s.waitQueue.erase thr) : Agreement t := by
  constructor
  · intro x
    rw [queue, states, count_append, agreement.runnable]
    by_cases same : x = thr
    · subst same
      simp [fresh]
    · simp [update_of_ne same, Ne.symm same]
  · intro x
    rw [waits, states, count_erase, agreement.waiting]
    by_cases same : x = thr
    · subst same
      simp only [update_self, beq_self_eq_true, ↓reduceIte, reduceCtorEq]
      split <;> omega
    · simp [update_of_ne same, Ne.symm same]

theorem Agreement.setWaiting (agreement : Agreement s) (runs : s.state thr = .running)
    (states : t.state = update s.state thr .waiting) (queue : t.runnableQueue = s.runnableQueue)
    (waits : t.waitQueue = s.waitQueue ++ [thr]) : Agreement t := by
  constructor
  · intro x
    rw [queue, states, agreement.runnable]
    by_cases same : x = thr
    · subst same
      simp [runs]
    · simp [update_of_ne same]
  · intro x
    rw [waits, states, count_append, agreement.waiting]
    by_cases same : x = thr
    · subst same
      simp [runs]
    · simp [update_of_ne same, Ne.symm same]

theorem Agreement.setZombie (agreement : Agreement s) (runs : s.state thr = .running) :
    Agreement (sched_SetZombieState thr s) := by
  have states : (sched_SetZombieState thr s).state = update s.state thr .zombie :=
    setState_state s thr .zombie
  constructor
  · intro x
    rw [states]
    change s.runnableQueue.count x = _
    rw [agreement.runnable]
    by_cases same : x = thr
    · subst same
      simp [runs]
    · simp [update_of_ne same]
  · intro x
    rw [states]
    change s.waitQueue.count x = _
    rw [agreement.waiting]
    by_cases same : x = thr
    · subst same
      simp [runs]
    · simp [update_of_ne same]

end

section

variable {Cpu : Type} [DecidableEq Cpu]

inductive Op (Cpu : Type) where
  | setRunnable (epoch : Nat) (thr : ThreadId)
  | setWaiting (epoch : Nat) (thr : ThreadId)
  | setZombie (thr : ThreadId)
  | scheduler (cpu : Cpu)

def apply (s : Kernel Cpu) : Op Cpu → Option (Kernel Cpu)
  | .setRunnable epoch thr => sched_SetRunnable epoch thr s
  | .setWaiting epoch thr => sched_SetWaiting epoch thr s
  | .setZombie thr => some (sched_SetZombieState thr s)
  | .scheduler cpu => sched_Scheduler cpu s

/-- The states in which the callers use the functions. -/
def Allowed (s : Kernel Cpu) : Op Cpu → Prop
  | .setRunnable _ thr => s.state thr = .null ∨ s.state thr = .waiting
  | .setWaiting _ thr => s.state thr = .running
  | .setZombie thr => s.state thr = .running
  | .scheduler _ => True

def Step (s : Kernel Cpu) (op : Op Cpu) (t : Kernel Cpu) : Prop :=
  Allowed s op ∧ apply s op = some t

variable {s t : Kernel Cpu}

theorem Agreement.switch (agreement : Agreement s) {cpu : Cpu} {next : ThreadId}
    {rest : List ThreadId} (queue : s.runnableQueue = next :: rest)
    (switched : sched_Scheduler cpu s = some t) : Agreement t := by
  obtain ⟨u, ran, _, waits, states, queued⟩ := sched_Scheduler_switches agreement cpu queue
  obtain rfl := some.inj (switched.symm.trans ran)
  have first : s.state next = .runnable := agreement.mem_runnable.mp (by simp [queue])
  have counts : ∀ x, rest.count x = if update s.state next .running x = .runnable then 1 else 0 := by
    intro x
    have whole := agreement.runnable x
    rw [queue, count_cons] at whole
    by_cases same : x = next
    · subst same
      simp [first] at whole
      simp [whole]
    · simp [Ne.symm same] at whole
      simp [update_of_ne same, whole]
  by_cases again : update s.state next .running (s.curProc cpu) = .running
  · rw [if_pos again] at states queued
    constructor
    · intro x
      rw [queued, states, count_append, counts]
      by_cases same : x = s.curProc cpu
      · subst same
        simp [again]
      · simp [update_of_ne same, Ne.symm same]
    · intro x
      rw [waits, states, agreement.waiting]
      by_cases same : x = s.curProc cpu
      · subst same
        by_cases self : s.curProc cpu = next
        · simp [self, first]
        · rw [update_of_ne self] at again
          simp [again]
      · rw [update_of_ne same]
        by_cases taken : x = next
        · subst taken
          simp [first]
        · rw [update_of_ne taken]
  · rw [if_neg again] at states queued
    constructor
    · intro x
      rw [queued, states]
      exact counts x
    · intro x
      rw [waits, states, agreement.waiting]
      by_cases taken : x = next
      · subst taken
        simp [first]
      · rw [update_of_ne taken]

/-- Every thread is current on one CPU at most, and then on no queue of runnable threads. -/
structure Placed (s : Kernel Cpu) : Prop where
  agreement : Agreement s
  single : ∀ c d, s.curProc c = s.curProc d → c = d
  current : ∀ c, s.state (s.curProc c) ≠ .runnable

theorem Placed.scheduler (placed : Placed s) {cpu : Cpu} (ran : sched_Scheduler cpu s = some t) :
    Placed t ∧
    (∀ x, t.state x = s.state x ∨ s.state x = .runnable ∧ t.state x = .running ∨
      s.state x = .running ∧ t.state x = .runnable) ∧
    (t = s ∧ s.state (s.curProc cpu) = .running ∨
      ∃ next, s.state next = .runnable ∧ t.curProc = update s.curProc cpu next) := by
  cases queue : s.runnableQueue with
  | nil =>
    simp only [sched_Scheduler, queue, ite_none_right_eq_some, some.injEq] at ran
    obtain ⟨runs, rfl⟩ := ran
    exact ⟨placed, fun _ => .inl rfl, .inl ⟨rfl, runs⟩⟩
  | cons next rest =>
    have first : s.state next = .runnable := placed.agreement.mem_runnable.mp (by simp [queue])
    have other : ∀ c, s.curProc c ≠ next := fun c same => placed.current c (same ▸ first)
    obtain ⟨u, switched, current, _, states, _⟩ :=
      sched_Scheduler_switches placed.agreement cpu queue
    obtain rfl := some.inj (ran.symm.trans switched)
    have states : t.state = if s.state (s.curProc cpu) = .running then
        update (update s.state next .running) (s.curProc cpu) .runnable
      else update s.state next .running := by
      rw [states, update_of_ne (other cpu)]
    have changes : ∀ x, t.state x = s.state x ∨ s.state x = .runnable ∧ t.state x = .running ∨
        s.state x = .running ∧ t.state x = .runnable := by
      intro x
      rw [states]
      by_cases taken : x = next
      · subst taken
        refine .inr (.inl ⟨first, ?_⟩)
        split
        · rw [update_of_ne (Ne.symm (other cpu)), update_self]
        · rw [update_self]
      · by_cases previous : x = s.curProc cpu
        · subst previous
          split
          · rename_i runs
            exact .inr (.inr ⟨runs, update_self ..⟩)
          · exact .inl (update_of_ne taken ..)
        · refine .inl ?_
          split
          · rw [update_of_ne previous, update_of_ne taken]
          · rw [update_of_ne taken]
    refine ⟨⟨placed.agreement.switch queue ran, ?_, ?_⟩, changes, .inr ⟨next, first, current⟩⟩
    · intro c d
      rw [current]
      by_cases left : c = cpu
      · by_cases right : d = cpu
        · exact fun _ => left.trans right.symm
        · rw [left, update_self, update_of_ne right]
          exact fun same => absurd same.symm (other d)
      · by_cases right : d = cpu
        · rw [right, update_self, update_of_ne left]
          exact fun same => absurd same (other c)
        · rw [update_of_ne left, update_of_ne right]
          exact placed.single c d
    · intro c
      rw [current]
      by_cases here : c = cpu
      · rw [here, update_self]
        rcases changes next with same | ⟨_, runs⟩ | ⟨runs, _⟩
        · rw [states]
          split
          · rw [update_of_ne (Ne.symm (other cpu)), update_self]
            decide
          · rw [update_self]
            decide
        · rw [runs]
          decide
        · rw [first] at runs
          exact absurd runs (by decide)
      · rw [update_of_ne here]
        have apart : s.curProc c ≠ s.curProc cpu := fun same => here (placed.single c cpu same)
        have same : t.state (s.curProc c) = s.state (s.curProc c) := by
          rw [states]
          split
          · rw [update_of_ne apart, update_of_ne (other c)]
          · rw [update_of_ne (other c)]
        rw [same]
        exact placed.current c

omit [DecidableEq Cpu] in
theorem Placed.setRunnable (placed : Placed s) {epoch : Nat} {thr : ThreadId}
    (fresh : s.state thr ≠ .runnable) (away : ∀ c, s.curProc c ≠ thr)
    (ran : sched_SetRunnable epoch thr s = some t) : Placed t := by
  obtain ⟨u, result, states, current, queue, waits⟩ :=
    sched_SetRunnable_sets placed.agreement epoch fresh
  obtain rfl := some.inj (ran.symm.trans result)
  refine ⟨placed.agreement.setRunnable fresh states queue waits, ?_, ?_⟩
  · rw [current]
    exact placed.single
  · intro c
    rw [current, states, update_of_ne (away c)]
    exact placed.current c

omit [DecidableEq Cpu] in
theorem Placed.setWaiting (placed : Placed s) {epoch : Nat} {thr : ThreadId}
    (ran : sched_SetWaiting epoch thr s = some t) :
    Placed t ∧ s.state thr = .running ∧ t.state = update s.state thr .waiting ∧
      t.curProc = s.curProc := by
  have runs : s.state thr = .running := by
    by_contra stopped
    simp [sched_SetWaiting, stopped] at ran
  obtain ⟨u, result, states, current, queue, waits⟩ :=
    sched_SetWaiting_sets placed.agreement epoch runs
  obtain rfl := some.inj (ran.symm.trans result)
  refine ⟨⟨placed.agreement.setWaiting runs states queue waits, ?_, ?_⟩, runs, states, current⟩
  · rw [current]
    exact placed.single
  · intro c
    rw [current, states]
    by_cases self : s.curProc c = thr
    · rw [self, update_self]
      decide
    · rw [update_of_ne self]
      exact placed.current c

def isScheduler : Op Cpu → Bool
  | .scheduler _ => true
  | _ => false

theorem apply_agrees (agreement : Agreement s) {op : Op Cpu} (allowed : Allowed s op) :
    (∃ t, apply s op = some t ∧ Agreement t ∧
      ∃ tail, t.runnableQueue = s.runnableQueue.drop (if isScheduler op then 1 else 0) ++ tail) ∨
    ∃ cpu, op = .scheduler cpu ∧ s.runnableQueue = [] ∧ s.state (s.curProc cpu) ≠ .running := by
  cases op with
  | setRunnable epoch thr =>
    have fresh : s.state thr ≠ .runnable := by
      rcases allowed with state | state <;> rw [state] <;> decide
    obtain ⟨t, ran, states, _, queue, waits⟩ := sched_SetRunnable_sets agreement epoch fresh
    exact .inl ⟨t, ran, agreement.setRunnable fresh states queue waits, _, queue⟩
  | setWaiting epoch thr =>
    obtain ⟨t, ran, states, _, queue, waits⟩ := sched_SetWaiting_sets agreement epoch allowed
    refine .inl ⟨t, ran, agreement.setWaiting allowed states queue waits, [], ?_⟩
    exact queue.trans (append_nil _).symm
  | setZombie thr =>
    exact .inl ⟨_, rfl, agreement.setZombie allowed, [], (append_nil _).symm⟩
  | scheduler cpu =>
    cases queue : s.runnableQueue with
    | nil =>
      by_cases runs : s.state (s.curProc cpu) = .running
      · refine .inl ⟨s, ?_, agreement, [], queue⟩
        simp [apply, sched_Scheduler, queue, runs]
      · exact .inr ⟨cpu, rfl, rfl, runs⟩
    | cons next rest =>
      obtain ⟨t, ran, _, _, _, queued⟩ := sched_Scheduler_switches agreement cpu queue
      refine .inl ⟨t, ran, agreement.switch queue ran, ?_⟩
      rw [queued]
      split
      · exact ⟨_, rfl⟩
      · exact ⟨[], (append_nil _).symm⟩

theorem Step.agrees {op : Op Cpu} (agreement : Agreement s) (step : Step s op t) : Agreement t ∧
    ∃ tail, t.runnableQueue = s.runnableQueue.drop (if isScheduler op then 1 else 0) ++ tail := by
  obtain ⟨allowed, applied⟩ := step
  rcases apply_agrees agreement allowed with ⟨u, ran, after⟩ | ⟨cpu, rfl, queue, stopped⟩
  · rw [some.inj (applied.symm.trans ran)]
    exact after
  · simp [apply, sched_Scheduler, queue, stopped] at applied

/-- Queues and states agree after every interleaving of the scheduler's functions, and no
queue operation meets a thread in the wrong place. -/
theorem sched_queues_agree (booted : Booted s) {ops : List (Op Cpu)} (ran : Run Step s ops t) :
    Agreement t ∧ ∀ op, Allowed t op → (∃ u, apply t op = some u) ∨
      ∃ cpu, op = .scheduler cpu ∧ t.runnableQueue = [] ∧ t.state (t.curProc cpu) ≠ .running := by
  have agreement := ran.invariant Agreement (fun _ _ _ kept step => (step.agrees kept).1)
    booted.agreement
  refine ⟨agreement, ?_⟩
  intro op allowed
  rcases apply_agrees agreement allowed with ⟨u, applied, _⟩ | stopped
  · exact .inl ⟨u, applied⟩
  · exact .inr stopped

def twoCpus : Kernel (Fin 2) where
  thread thr := ⟨0, if thr < 2 then .running else .null, 0, 0, 0⟩
  procState _ := .ready
  waitQueue := []
  runnableQueue := []
  curProc cpu := cpu.val

theorem twoCpus_booted : Booted twoCpus := by
  refine ⟨rfl, rfl, ?_⟩
  intro thr
  by_cases current : thr < 2
  · exact .inl (if_pos current)
  · exact .inr (if_neg current)

theorem sched_queues_agree_sleep :
    ∃ t, Run Step twoCpus [.setRunnable 0 2, .setWaiting 1 0, .scheduler 0, .setRunnable 5 0] t ∧
      t.runnableQueue = [0] ∧ Agreement t := by
  obtain ⟨t, ran, queue⟩ : ∃ t, Run Step twoCpus
      [.setRunnable 0 2, .setWaiting 1 0, .scheduler 0, .setRunnable 5 0] t ∧ t.runnableQueue = [0] :=
    ⟨_, .cons ⟨.inl rfl, rfl⟩ (.cons ⟨rfl, rfl⟩ (.cons ⟨trivial, rfl⟩ (.single ⟨.inr rfl, rfl⟩))), rfl⟩
  exact ⟨t, ran, queue, (sched_queues_agree twoCpus_booted ran).1⟩

theorem run_queue {ops : List (Op Cpu)} (ran : Run Step s ops t) (agreement : Agreement s) :
    Agreement t ∧ ∃ tail, t.runnableQueue = s.runnableQueue.drop (ops.countP isScheduler) ++ tail := by
  induction ran with
  | nil s => exact ⟨agreement, [], (append_nil _).symm⟩
  | cons first _ ih =>
    obtain ⟨next, mid, moved⟩ := first.agrees agreement
    obtain ⟨after, tail, queue⟩ := ih next
    rw [queue, moved, drop_append, drop_drop, append_assoc, countP_cons,
      add_comm]
    exact ⟨after, _, rfl⟩

/-- While the thread at position `k` waits for its turn, each call of `Sched_Scheduler` on any CPU
dispatches the next thread of the queue as it was, and the call after `k` others dispatches it. -/
theorem sched_Scheduler_fifo {boot : Kernel Cpu} (booted : Booted boot) {before ops : List (Op Cpu)}
    (reached : Run Step boot before s) {k : Nat} {thr : ThreadId}
    (place : s.runnableQueue[k]? = some thr) (ran : Run Step s ops t)
    (early : ops.countP isScheduler ≤ k) (cpu : Cpu) :
    ∃ u, apply t (.scheduler cpu) = some u ∧
      s.runnableQueue[ops.countP isScheduler]? = some (u.curProc cpu) ∧
      (u.curProc cpu = thr ↔ ops.countP isScheduler = k) := by
  have agreement := (sched_queues_agree booted reached).1
  obtain ⟨after, tail, queue⟩ := run_queue ran agreement
  obtain ⟨inside, here⟩ := List.getElem?_eq_some_iff.mp place
  have present : ops.countP isScheduler < s.runnableQueue.length := lt_of_le_of_lt early inside
  rw [drop_eq_getElem_cons present, cons_append] at queue
  obtain ⟨u, applied, current, _⟩ := sched_Scheduler_switches after cpu queue
  have once : s.runnableQueue.Nodup := by
    refine nodup_iff_count_le_one.mpr (fun x => ?_)
    rw [agreement.runnable]
    split <;> omega
  refine ⟨u, applied, ?_, ?_⟩
  · rw [current, update_self]
    exact getElem?_eq_getElem present
  · rw [current, update_self, ← here]
    exact once.getElem_inj_iff

theorem sched_Scheduler_fifo_second :
    ∃ s t u, Run Step twoCpus [.setRunnable 0 2, .setRunnable 0 3] s ∧
    s.runnableQueue[1]? = some 3 ∧ Run Step s [.setWaiting 1 0, .scheduler 0, .setRunnable 5 0] t ∧
    apply t (.scheduler 1) = some u ∧ u.curProc 1 = 3 := by
  obtain ⟨s, reached, place, t, ran⟩ : ∃ s, Run Step twoCpus [.setRunnable 0 2, .setRunnable 0 3] s ∧
      s.runnableQueue[1]? = some 3 ∧
      ∃ t, Run Step s [.setWaiting 1 0, .scheduler 0, .setRunnable 5 0] t :=
    ⟨_, .cons ⟨.inl rfl, rfl⟩ (.single ⟨.inl rfl, rfl⟩), rfl,
      _, .cons ⟨rfl, rfl⟩ (.cons ⟨trivial, rfl⟩ (.single ⟨.inr rfl, rfl⟩))⟩
  obtain ⟨u, applied, _, turn⟩ :=
    sched_Scheduler_fifo twoCpus_booted reached place ran (by decide) 1
  exact ⟨s, t, u, reached, place, ran, applied, turn.mpr rfl⟩

end

end BoringOs.Sched
