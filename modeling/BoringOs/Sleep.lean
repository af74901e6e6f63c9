import BoringOs.Semaphore

/-! Sleeping and waking up on wait channels and semaphores, after `sys/kern/waitchannel.c` and
`sys/kern/semaphore.c`. Every section under a spinlock is one step of a CPU, and between any two
steps the timer may call `Sched_Scheduler`. Wakeups come from any CPU at any time. -/

namespace BoringOs.Sleep

open Runs Sched Semaphore Function List Option

inductive Obj where
  | chan (n : Nat)
  | sema (n : Nat)
  deriving DecidableEq

inductive Pc where
  /-- Neither in `WaitChannel_Sleep` nor in `Semaphore_Acquire`. -/
  | idle
  /-- Has `wchan->lock`; `Sched_SetWaiting` comes next. -/
  | chanLocked (n : Nat)
  /-- Is waiting; the insertion into `chanQueue` and the unlock come next. -/
  | chanWaiting (n : Nat)
  /-- A pass of the loop of `Semaphore_Acquire`. -/
  | semaPass (n : Nat)
  /-- Is on `waiters` and has `sema->lock`; `Sched_SetWaiting` and the unlock come next. -/
  | semaQueued (n : Nat)
  /-- `Sched_Scheduler` comes next. -/
  | leaving (o : Obj)
  /-- In `Sched_Scheduler`, until it is scheduled again. -/
  | parked (o : Obj)
  deriving DecidableEq

structure System (Cpu : Type) where
  kernel : Kernel Cpu
  chanQueue : Nat → List ThreadId
  sema : Nat → Sema
  lock : Obj → Option ThreadId
  pc : ThreadId → Pc

inductive Label (Cpu : Type) where
  /-- The timer interrupt. -/
  | tick (cpu : Cpu)
  /-- `Sched_SetRunnable` of a new thread. -/
  | spawn (epoch : Nat) (thr : ThreadId)
  /-- `WaitChannel_Lock` before a call of `WaitChannel_Sleep`. -/
  | chanLock (cpu : Cpu) (n : Nat)
  /-- `Sched_SetWaiting` by the current thread. -/
  | setWaiting (epoch : Nat) (cpu : Cpu)
  /-- The insertion into `chanQueue` and the unlock. -/
  | publish (cpu : Cpu)
  /-- A call of `Semaphore_Acquire`, and a pass of its loop. -/
  | acquire (cpu : Cpu) (n : Nat)
  | pass (cpu : Cpu)
  /-- `Sched_Scheduler` by a sleeper, and its return. -/
  | leave (cpu : Cpu)
  | resume (cpu : Cpu)
  /-- `WaitChannel_Wake`. -/
  | wake (epoch : Nat) (n : Nat)
  /-- `Semaphore_Release`. -/
  | release (epoch : Nat) (n : Nat)

section

variable {Cpu : Type}

/-- The threads that sleep on an object, or are about to. -/
def System.queue (s : System Cpu) : Obj → List ThreadId
  | .chan n => s.chanQueue n
  | .sema n => (s.sema n).waiters

def System.current (s : System Cpu) (cpu : Cpu) : ThreadId := s.kernel.curProc cpu

def System.goto (s : System Cpu) (thr : ThreadId) (pc : Pc) : System Cpu :=
  { s with pc := Function.update s.pc thr pc }

def System.setLock (s : System Cpu) (o : Obj) (owner : Option ThreadId) : System Cpu :=
  { s with lock := Function.update s.lock o owner }

def System.setChan (s : System Cpu) (n : Nat) (queue : List ThreadId) : System Cpu :=
  { s with chanQueue := Function.update s.chanQueue n queue }

def System.setSema (s : System Cpu) (n : Nat) (sema : Sema) : System Cpu :=
  { s with sema := Function.update s.sema n sema }

def System.setKernel (s : System Cpu) (kernel : Kernel Cpu) : System Cpu := { s with kernel := kernel }

/-- `Sched_SetRunnable` of the thread that was taken off a queue, if there was one. -/
def System.setRunnable (s : System Cpu) (epoch : Nat) : Option ThreadId → Option (System Cpu)
  | none => some s
  | some thr => (sched_SetRunnable epoch thr s.kernel).map s.setKernel

def apply [DecidableEq Cpu] (s : System Cpu) : Label Cpu → Option (System Cpu)
  | .tick cpu => (sched_Scheduler cpu s.kernel).map s.setKernel
  | .spawn epoch thr => if s.kernel.state thr = .null then s.setRunnable epoch (some thr) else none
  | .chanLock cpu n =>
    let cur := s.current cpu
    if s.pc cur = .idle ∧ s.lock (.chan n) = none then
      some ((s.setLock (.chan n) (some cur)).goto cur (.chanLocked n))
    else none
  | .setWaiting epoch cpu =>
    let cur := s.current cpu
    match s.pc cur with
    | .chanLocked n =>
      (sched_SetWaiting epoch cur s.kernel).map (fun kernel =>
        (s.setKernel kernel).goto cur (.chanWaiting n))
    | .semaQueued n =>
      (sched_SetWaiting epoch cur s.kernel).map (fun kernel =>
        ((s.setKernel kernel).setLock (.sema n) none).goto cur (.leaving (.sema n)))
    | _ => none
  | .publish cpu =>
    let cur := s.current cpu
    match s.pc cur with
    | .chanWaiting n =>
      some (((s.setChan n (s.chanQueue n ++ [cur])).setLock (.chan n) none).goto cur
        (.leaving (.chan n)))
    | _ => none
  | .acquire cpu n =>
    let cur := s.current cpu
    if s.pc cur = .idle then some (s.goto cur (.semaPass n)) else none
  | .pass cpu =>
    let cur := s.current cpu
    match s.pc cur with
    | .semaPass n =>
      if s.lock (.sema n) = none then
        match semaphore_Acquire cur (s.sema n) with
        | (true, sema) => some ((s.setSema n sema).goto cur .idle)
        | (false, sema) =>
          some (((s.setSema n sema).setLock (.sema n) (some cur)).goto cur (.semaQueued n))
      else none
    | _ => none
  | .leave cpu =>
    let cur := s.current cpu
    match s.pc cur with
    | .leaving o =>
      (sched_Scheduler cpu s.kernel).map (fun kernel => (s.setKernel kernel).goto cur (.parked o))
    | _ => none
  | .resume cpu =>
    let cur := s.current cpu
    match s.pc cur with
    | .parked (.chan _) => some (s.goto cur .idle)
    | .parked (.sema n) => some (s.goto cur (.semaPass n))
    | _ => none
  | .wake epoch n =>
    if s.lock (.chan n) = none then
      (s.setChan n (s.chanQueue n).tail).setRunnable epoch (s.chanQueue n).head?
    else none
  | .release epoch n =>
    if s.lock (.sema n) = none then
      match semaphore_Release (s.sema n) with
      | (thr, sema) => (s.setSema n sema).setRunnable epoch thr
    else none

def wakes (s : System Cpu) : Label Cpu → Option ThreadId
  | .spawn _ thr => some thr
  | .wake _ n => (s.queue (.chan n)).head?
  | .release _ n => (s.queue (.sema n)).head?
  | _ => none

/-- The sleeper has left its CPU before it is woken up. -/
def Away (s : System Cpu) (label : Label Cpu) : Prop :=
  ∀ thr, wakes s label = some thr → ∀ cpu, s.current cpu ≠ thr

/-- All CPUs run different threads, and nobody sleeps. -/
structure Started (s : System Cpu) : Prop where
  booted : Booted s.kernel
  single : ∀ c d, s.current c = s.current d → c = d
  chans : ∀ n, s.chanQueue n = []
  semas : ∀ n, (s.sema n).waiters = []
  pcs : ∀ thr, s.pc thr = .idle

/-- A thread is on the queue of an object in the middle of `Semaphore_Acquire`, and as long
as it sleeps. -/
def Listed (s : System Cpu) (thr : ThreadId) (o : Obj) : Prop :=
  (∃ n, s.pc thr = .semaQueued n ∧ o = .sema n) ∨
    (s.pc thr = .leaving o ∨ s.pc thr = .parked o) ∧ s.kernel.state thr = .waiting

def Phase (s : System Cpu) (thr : ThreadId) : Prop :=
  match s.pc thr with
  | .chanWaiting _ => s.kernel.state thr = .waiting
  | .leaving _ | .parked _ => True
  | _ => s.kernel.state thr ≠ .waiting

structure Inv (s : System Cpu) : Prop where
  placed : Placed s.kernel
  distinct : ∀ o, (s.queue o).Nodup
  listed : ∀ o thr, thr ∈ s.queue o ↔ Listed s thr o
  phases : ∀ thr, Phase s thr
  held : ∀ thr n, s.pc thr = .semaQueued n → s.lock (.sema n) = some thr
  awake : ∀ cpu o, s.pc (s.current cpu) = .parked o → s.kernel.state (s.current cpu) ≠ .waiting

end

section

variable {Cpu : Type} (s : System Cpu)

theorem queue_setChan (n : Nat) (queue : List ThreadId) (o : Obj) :
    (s.setChan n queue).queue o = if o = .chan n then queue else s.queue o := by
  cases o with
  | chan m =>
    by_cases same : m = n
    · subst same
      simp [System.queue, System.setChan]
    · simp [System.queue, System.setChan, same]
  | sema m => simp [System.queue, System.setChan]

theorem queue_setSema (n : Nat) (sema : Sema) (o : Obj) :
    (s.setSema n sema).queue o = if o = .sema n then sema.waiters else s.queue o := by
  cases o with
  | chan m => simp [System.queue, System.setSema]
  | sema m =>
    by_cases same : m = n
    · subst same
      simp [System.queue, System.setSema]
    · simp [System.queue, System.setSema, same]

theorem lock_setLock_chan (n m : Nat) (owner : Option ThreadId) :
    (s.setLock (.chan n) owner).lock (.sema m) = s.lock (.sema m) := by
  simp [System.setLock]

theorem lock_setLock_sema (n m : Nat) (owner : Option ThreadId) :
    (s.setLock (.sema n) owner).lock (.sema m) = if m = n then owner else s.lock (.sema m) := by
  by_cases same : m = n
  · subst same
    simp [System.setLock]
  · simp [System.setLock, same]

end

variable {Cpu : Type} {o : Obj} {epoch : Nat} {kernel : Kernel Cpu} {label : Label Cpu}

section

variable {s t : System Cpu} (cur : ThreadId)

theorem Listed.congr {thr : ThreadId} (pc : t.pc thr = s.pc thr)
    (waits : t.kernel.state thr = .waiting ↔ s.kernel.state thr = .waiting) :
    Listed t thr o ↔ Listed s thr o := by
  unfold Listed
  rw [pc, waits]

theorem Phase.congr {thr : ThreadId} (phase : Phase s thr) (pc : t.pc thr = s.pc thr)
    (waits : t.kernel.state thr = .waiting ↔ s.kernel.state thr = .waiting) : Phase t thr := by
  unfold Phase at phase ⊢
  rw [pc]
  split at phase <;> simp_all

theorem Listed.unique {thr : ThreadId} {o p : Obj} (first : Listed s thr o)
    (second : Listed s thr p) : o = p := by
  rcases first with ⟨n, here, rfl⟩ | ⟨here, _⟩ <;> rcases second with ⟨m, there, rfl⟩ | ⟨there, _⟩
  · rw [here] at there
    cases there
    rfl
  · rw [here] at there
    rcases there with there | there <;> cases there
  · rw [there] at here
    rcases here with here | here <;> cases here
  · rcases here with here | here <;> rw [here] at there <;> rcases there with there | there <;>
      cases there <;> rfl

theorem Inv.move (inv : Inv s) (placed : Placed t.kernel) (pcs : ∀ x, x ≠ cur → t.pc x = s.pc x)
    (waits : ∀ x, x ≠ cur → (t.kernel.state x = .waiting ↔ s.kernel.state x = .waiting))
    (distinct : ∀ o, (t.queue o).Nodup) (queues : ∀ o x, x ≠ cur → (x ∈ t.queue o ↔ x ∈ s.queue o))
    (listed : ∀ o, cur ∈ t.queue o ↔ Listed t cur o) (phase : Phase t cur)
    (locks : ∀ x, x ≠ cur → ∀ n, s.lock (.sema n) = some x → t.lock (.sema n) = some x)
    (held : ∀ n, t.pc cur = .semaQueued n → t.lock (.sema n) = some cur)
    (awake : ∀ cpu o, t.pc (t.current cpu) = .parked o →
      t.kernel.state (t.current cpu) ≠ .waiting) : Inv t := by
  refine ⟨placed, distinct, ?_, ?_, ?_, awake⟩
  · intro o x
    by_cases self : x = cur
    · rw [self]
      exact listed o
    · rw [queues o x self, inv.listed, Listed.congr (pcs x self) (waits x self)]
  · intro x
    by_cases self : x = cur
    · rw [self]
      exact phase
    · exact (inv.phases x).congr (pcs x self) (waits x self)
  · intro x n here
    by_cases self : x = cur
    · rw [self] at here ⊢
      exact held n here
    · rw [pcs x self] at here
      exact locks x self n (inv.held x n here)

theorem Inv.awake_of (inv : Inv s) (current : t.kernel.curProc = s.kernel.curProc)
    (pcs : ∀ x, x ≠ cur → t.pc x = s.pc x)
    (waits : ∀ x, x ≠ cur → (t.kernel.state x = .waiting ↔ s.kernel.state x = .waiting))
    (self : ∀ o, t.pc cur = .parked o → t.kernel.state cur ≠ .waiting) :
    ∀ cpu o, t.pc (t.current cpu) = .parked o → t.kernel.state (t.current cpu) ≠ .waiting := by
  intro cpu o here
  have same : t.current cpu = s.current cpu := by
    unfold System.current
    rw [current]
  by_cases own : t.current cpu = cur
  · rw [own] at here ⊢
    exact self o here
  · rw [pcs _ own, same] at here
    have before := inv.awake cpu o here
    rw [Ne, waits _ own, same]
    exact before

theorem Inv.asleep (inv : Inv s) {thr : ThreadId} (member : thr ∈ s.queue o)
    (unlocked : s.lock o = none) :
    (s.pc thr = .leaving o ∨ s.pc thr = .parked o) ∧ s.kernel.state thr = .waiting := by
  rcases (inv.listed o thr).mp member with ⟨n, here, rfl⟩ | asleep
  · rw [inv.held thr n here] at unlocked
    cases unlocked
  · exact asleep

theorem pc_update {cur : ThreadId} {pc : Pc} (pcs : t.pc = update s.pc cur pc) :
    t.pc cur = pc ∧ ∀ x, x ≠ cur → t.pc x = s.pc x := by
  rw [pcs]
  exact ⟨update_self .., fun x other => update_of_ne other ..⟩

theorem Inv.goto (inv : Inv s) {cur : ThreadId} {pc : Pc} (unlisted : ∀ o, ¬ Listed s cur o)
    (awake : s.kernel.state cur ≠ .waiting)
    (place : pc = .idle ∨ (∃ n, pc = .chanLocked n) ∨ ∃ n, pc = .semaPass n)
    (kernels : t.kernel = s.kernel) (pcs : t.pc = update s.pc cur pc) (queues : t.queue = s.queue)
    (locks : ∀ n, t.lock (.sema n) = s.lock (.sema n)) : Inv t := by
  obtain ⟨own, others⟩ := pc_update pcs
  have waits : ∀ x, x ≠ cur → (t.kernel.state x = .waiting ↔ s.kernel.state x = .waiting) :=
    fun x _ => by rw [kernels]
  refine inv.move cur (by rw [kernels]; exact inv.placed) others waits ?_ ?_ ?_ ?_ ?_ ?_ ?_
  · intro o
    rw [queues]
    exact inv.distinct o
  · intro o x _
    rw [queues]
  · intro o
    rw [queues, inv.listed, iff_false_left (unlisted o)]
    unfold Listed
    rw [own]
    rcases place with rfl | ⟨n, rfl⟩ | ⟨n, rfl⟩ <;> simp
  · unfold Phase
    rw [own, kernels]
    rcases place with rfl | ⟨n, rfl⟩ | ⟨n, rfl⟩ <;> exact awake
  · intro x _ n owner
    exact (locks n).trans owner
  · intro n here
    rw [own] at here
    rcases place with rfl | ⟨m, rfl⟩ | ⟨m, rfl⟩ <;> cases here
  · refine inv.awake_of cur (congrArg Kernel.curProc kernels) others waits ?_
    intro o here
    rw [kernels]
    exact awake

theorem unlisted_of {cur : ThreadId} {pc : Pc} (here : s.pc cur = pc)
    (place : pc = .idle ∨ (∃ n, pc = .chanLocked n) ∨ (∃ n, pc = .semaPass n) ∨
      ∃ n, pc = .chanWaiting n) (o : Obj) : ¬ Listed s cur o := by
  unfold Listed
  rw [here]
  rcases place with rfl | ⟨n, rfl⟩ | ⟨n, rfl⟩ | ⟨n, rfl⟩ <;> simp

theorem Inv.enqueue (inv : Inv s) {cur : ThreadId} (unlisted : ∀ o, ¬ Listed s cur o)
    {pc : Pc} (kernels : t.kernel = s.kernel) (pcs : t.pc = update s.pc cur pc)
    (queues : ∀ p, t.queue p = if p = o then s.queue o ++ [cur] else s.queue p)
    (place : (∃ n, o = .chan n ∧ pc = .leaving (.chan n)) ∧ s.kernel.state cur = .waiting ∨
      (∃ n, o = .sema n ∧ pc = .semaQueued n ∧ t.lock (.sema n) = some cur) ∧
        s.kernel.state cur ≠ .waiting)
    (locks : ∀ x, x ≠ cur → ∀ n, s.lock (.sema n) = some x → t.lock (.sema n) = some x) : Inv t := by
  obtain ⟨own, others⟩ := pc_update pcs
  have waits : ∀ x, x ≠ cur → (t.kernel.state x = .waiting ↔ s.kernel.state x = .waiting) :=
    fun x _ => by rw [kernels]
  have absent : ∀ p, cur ∉ s.queue p := fun p member => unlisted p ((inv.listed p cur).mp member)
  refine inv.move cur (by rw [kernels]; exact inv.placed) others waits ?_ ?_ ?_ ?_ locks ?_ ?_
  · intro p
    rw [queues]
    split
    · exact nodup_snoc (inv.distinct o) (absent o)
    · exact inv.distinct p
  · intro p x other
    rw [queues]
    by_cases same : p = o
    · rw [if_pos same, same, mem_append, mem_singleton, or_iff_left other]
    · rw [if_neg same]
  · intro p
    have here : cur ∈ t.queue p ↔ p = o := by
      rw [queues]
      by_cases same : p = o
      · simp [same]
      · simp [same, absent p]
    rw [here]
    unfold Listed
    rw [own, kernels]
    rcases place with ⟨⟨n, rfl, rfl⟩, sleeps⟩ | ⟨⟨n, rfl, rfl, _⟩, _⟩
    · simp [sleeps, eq_comm]
    · simp
  · unfold Phase
    rw [own, kernels]
    rcases place with ⟨⟨n, rfl, rfl⟩, _⟩ | ⟨⟨n, rfl, rfl, _⟩, awake⟩
    · trivial
    · exact awake
  · intro n here
    rw [own] at here
    rcases place with ⟨⟨m, rfl, rfl⟩, _⟩ | ⟨⟨m, rfl, rfl, locked⟩, _⟩
    · cases here
    · cases here
      exact locked
  · refine inv.awake_of cur (congrArg Kernel.curProc kernels) others waits ?_
    intro p here
    rw [own] at here
    rcases place with ⟨⟨m, rfl, rfl⟩, _⟩ | ⟨⟨m, rfl, rfl, _⟩, _⟩ <;> cases here

theorem Started.inv (started : Started s) : Inv s := by
  have awake : ∀ thr, s.kernel.state thr ≠ .waiting ∧ s.kernel.state thr ≠ .runnable := by
    intro thr
    rcases started.booted.states thr with state | state <;> rw [state] <;> decide
  have empty : ∀ o, s.queue o = [] := by
    intro o
    cases o with
    | chan n => exact started.chans n
    | sema n => exact started.semas n
  refine ⟨⟨started.booted.agreement, started.single, fun c => (awake _).2⟩, ?_, ?_, ?_, ?_, ?_⟩
  · intro o
    rw [empty]
    exact nodup_nil
  · intro o thr
    simp [empty, Listed, started.pcs]
  · intro thr
    rw [Phase, started.pcs]
    exact (awake thr).1
  · intro thr n here
    rw [started.pcs] at here
    cases here
  · exact fun cpu o _ => (awake _).1

theorem Inv.safe (inv : Inv s) : s.kernel.Safe := by
  constructor
  · exact inv.placed.single
  · intro c queued
    exact inv.placed.current c (inv.placed.agreement.mem_runnable.mp queued)

theorem setRunnable_unsafe (agreement : Agreement s.kernel) {thr : ThreadId}
    (fresh : s.kernel.state thr ≠ .runnable) {cpu : Cpu} (current : s.current cpu = thr)
    (ran : s.setRunnable epoch (some thr) = some t) : ¬ t.kernel.Safe := by
  obtain ⟨kernel, result, rfl⟩ := map_eq_some_iff.mp ran
  obtain ⟨k, same, _, curProcs, queue, _⟩ := sched_SetRunnable_sets agreement epoch fresh
  obtain rfl := some.inj (result.symm.trans same)
  intro safe
  apply safe.unqueued cpu
  show kernel.curProc cpu ∈ kernel.runnableQueue
  rw [curProcs, queue, ← current]
  exact mem_append_right _ (mem_singleton.mpr rfl)

end

section

variable [DecidableEq Cpu] {s t : System Cpu}

theorem Inv.schedule (inv : Inv s) {cpu : Cpu}
    (ran : sched_Scheduler cpu s.kernel = some kernel) {pc : Pc} (place : pc = s.pc (s.current cpu) ∨
      ∃ o, s.pc (s.current cpu) = .leaving o ∧ pc = .parked o) :
    Inv ((s.setKernel kernel).goto (s.current cpu) pc) := by
  obtain ⟨placed, changes, moved⟩ := inv.placed.scheduler ran
  have waits : ∀ x, kernel.state x = .waiting ↔ s.kernel.state x = .waiting := by
    intro x
    rcases changes x with same | ⟨before, after⟩ | ⟨before, after⟩
    · rw [same]
    · simp [before, after]
    · simp [before, after]
  have pcs : ∀ x, x ≠ s.current cpu →
      ((s.setKernel kernel).goto (s.current cpu) pc).pc x = s.pc x :=
    fun x other => update_of_ne other ..
  have own : ((s.setKernel kernel).goto (s.current cpu) pc).pc (s.current cpu) = pc :=
    update_self ..
  have listed : ∀ o, Listed ((s.setKernel kernel).goto (s.current cpu) pc) (s.current cpu) o ↔
      Listed s (s.current cpu) o := by
    intro o
    rcases place with same | ⟨p, before, after⟩
    · exact Listed.congr (own.trans same) (waits _)
    · have own : ((s.setKernel kernel).goto (s.current cpu) pc).pc (s.current cpu) = .parked p :=
        own.trans after
      have waits : ((s.setKernel kernel).goto (s.current cpu) pc).kernel.state (s.current cpu) =
          .waiting ↔ s.kernel.state (s.current cpu) = .waiting := waits _
      simp [Listed, own, before, waits]
  refine inv.move _ placed pcs (fun x _ => waits x) inv.distinct (fun _ _ _ => Iff.rfl) ?_ ?_
    (fun _ _ _ same => same) ?_ ?_
  · intro o
    rw [listed]
    exact inv.listed o _
  · rcases place with same | ⟨o, _, after⟩
    · exact (inv.phases _).congr (own.trans same) (waits _)
    · unfold Phase
      rw [own, after]
      trivial
  · intro n here
    rcases place with same | ⟨o, _, after⟩
    · exact inv.held _ n (same.symm.trans (own.symm.trans here))
    · rw [own, after] at here
      cases here
  · intro c o here
    change ((s.setKernel kernel).goto (s.current cpu) pc).pc (kernel.curProc c) = _ at here
    change kernel.state (kernel.curProc c) ≠ _
    rcases moved with ⟨same, runs⟩ | ⟨next, ready, current⟩
    · have stays : kernel.curProc c = s.current c := congrFun (congrArg Kernel.curProc same) c
      rw [stays] at here ⊢
      rw [Ne, waits]
      by_cases self : s.current c = s.current cpu
      · rw [self, show s.kernel.state (s.current cpu) = .running from runs]
        decide
      · exact inv.awake c o ((pcs _ self).symm.trans here)
    · by_cases this : c = cpu
      · rw [current, this, update_self, Ne, waits, ready]
        decide
      · have stays : kernel.curProc c = s.current c := by
          rw [current, update_of_ne this]
          rfl
        have other : s.current c ≠ s.current cpu := fun same => this (inv.placed.single c cpu same)
        rw [stays] at here ⊢
        rw [Ne, waits]
        exact inv.awake c o ((pcs _ other).symm.trans here)

omit [DecidableEq Cpu] in
theorem Inv.wakeup (inv : Inv s) {thr : ThreadId} {rest : List ThreadId}
    (queue : s.queue o = thr :: rest) (unlocked : s.lock o = none)
    (away : ∀ cpu, s.current cpu ≠ thr) {u : System Cpu} (kernels : u.kernel = s.kernel)
    (pcs : u.pc = s.pc) (locks : u.lock = s.lock)
    (queues : ∀ p, u.queue p = if p = o then rest else s.queue p)
    (ran : u.setRunnable epoch (some thr) = some t) : Inv t := by
  obtain ⟨place, sleeps⟩ := inv.asleep (by rw [queue]; exact mem_cons_self) unlocked
  have fresh : s.kernel.state thr ≠ .runnable := by
    rw [sleeps]
    decide
  simp only [System.setRunnable, kernels] at ran
  obtain ⟨kernel, result, rfl⟩ := map_eq_some_iff.mp ran
  obtain ⟨k, same, states, current, _⟩ := sched_SetRunnable_sets inv.placed.agreement epoch fresh
  obtain rfl := some.inj (result.symm.trans same)
  have whole := inv.distinct o
  rw [queue, nodup_cons] at whole
  have others : ∀ x, x ≠ thr → (kernel.state x = .waiting ↔ s.kernel.state x = .waiting) := by
    intro x other
    rw [states, update_of_ne other]
  have ready : kernel.state thr = .runnable := by rw [states, update_self]
  have tQueues : ∀ p, (u.setKernel kernel).queue p = if p = o then rest else s.queue p := queues
  have tPcs : (u.setKernel kernel).pc = s.pc := pcs
  have gone : ∀ p, ¬ Listed (u.setKernel kernel) thr p := by
    intro p listed
    rcases listed with ⟨n, here, _⟩ | ⟨_, waiting⟩
    · rw [tPcs] at here
      rcases place with there | there <;> rw [here] at there <;> cases there
    · rw [show (u.setKernel kernel).kernel = kernel from rfl, ready] at waiting
      cases waiting
  refine inv.move thr (inv.placed.setRunnable fresh away result) ?_ others ?_ ?_ ?_ ?_ ?_ ?_ ?_
  · intro x _
    rw [tPcs]
  · intro p
    rw [tQueues]
    split
    · exact whole.2
    · exact inv.distinct p
  · intro p x other
    rw [tQueues]
    by_cases same : p = o
    · rw [if_pos same, same, queue, mem_cons, or_iff_right other]
    · rw [if_neg same]
  · intro p
    rw [iff_false_right (gone p), tQueues]
    by_cases same : p = o
    · rw [if_pos same]
      exact whole.1
    · rw [if_neg same]
      intro member
      have listed := (inv.listed p thr).mp member
      have here := (inv.listed o thr).mp (by rw [queue]; exact mem_cons_self)
      exact same (listed.unique here)
  · unfold Phase
    rw [tPcs]
    rcases place with there | there <;> rw [there] <;> trivial
  · intro x _ n owner
    exact (congrFun locks _).trans owner
  · intro n here
    rw [tPcs] at here
    rcases place with there | there <;> rw [here] at there <;> cases there
  · refine inv.awake_of thr current (fun x _ => by rw [tPcs]) others ?_
    intro o here
    rw [show (u.setKernel kernel).kernel = kernel from rfl, ready]
    decide

omit [DecidableEq Cpu] in
theorem Inv.spawn (inv : Inv s) {thr : ThreadId} (new : s.kernel.state thr = .null)
    (away : ∀ cpu, s.current cpu ≠ thr) (ran : s.setRunnable epoch (some thr) = some t) : Inv t := by
  have fresh : s.kernel.state thr ≠ .runnable := by
    rw [new]
    decide
  obtain ⟨kernel, result, rfl⟩ := map_eq_some_iff.mp ran
  obtain ⟨k, same, states, current, _⟩ := sched_SetRunnable_sets inv.placed.agreement epoch fresh
  obtain rfl := some.inj (result.symm.trans same)
  have waits : ∀ x, kernel.state x = .waiting ↔ s.kernel.state x = .waiting := by
    intro x
    rw [states]
    by_cases self : x = thr
    · rw [self, update_self, new]
      decide
    · rw [update_of_ne self]
  refine inv.move thr (inv.placed.setRunnable fresh away result) (fun _ _ => rfl)
    (fun x _ => waits x) inv.distinct (fun _ _ _ => Iff.rfl) ?_ ((inv.phases thr).congr rfl (waits thr))
    (fun _ _ _ owner => owner) (fun n here => inv.held thr n here) ?_
  · intro o
    have same : Listed (s.setKernel kernel) thr o ↔ Listed s thr o := Listed.congr rfl (waits thr)
    exact (inv.listed o thr).trans same.symm
  · refine inv.awake_of thr current (fun _ _ => rfl) (fun x _ => waits x) ?_
    intro o _ sleeps
    have before := (waits thr).mp sleeps
    rw [new] at before
    cases before

omit [DecidableEq Cpu] in
theorem Inv.setWaiting (inv : Inv s) {cur : ThreadId}
    (ran : sched_SetWaiting epoch cur s.kernel = some kernel) {pc : Pc}
    (place : (∃ n, s.pc cur = .chanLocked n ∧ pc = .chanWaiting n) ∨
      ∃ n, s.pc cur = .semaQueued n ∧ pc = .leaving (.sema n))
    (kernels : t.kernel = kernel) (pcs : t.pc = update s.pc cur pc)
    (queues : t.queue = s.queue)
    (locks : ∀ x, x ≠ cur → ∀ n, s.lock (.sema n) = some x → t.lock (.sema n) = some x) : Inv t := by
  obtain ⟨placed, runs, states, current⟩ := inv.placed.setWaiting ran
  obtain ⟨own, others⟩ := pc_update pcs
  have waits : ∀ x, x ≠ cur → (t.kernel.state x = .waiting ↔ s.kernel.state x = .waiting) := by
    intro x other
    rw [kernels, states, update_of_ne other]
  have sleeps : t.kernel.state cur = .waiting := by rw [kernels, states, update_self]
  refine inv.move cur (by rw [kernels]; exact placed) others waits ?_ ?_ ?_ ?_ locks ?_ ?_
  · intro o
    rw [queues]
    exact inv.distinct o
  · intro o x _
    rw [queues]
  · intro o
    rw [queues, inv.listed]
    unfold Listed
    rw [own, sleeps]
    rcases place with ⟨n, before, rfl⟩ | ⟨n, before, rfl⟩
    · simp [before]
    · simp [before, eq_comm]
  · unfold Phase
    rw [own]
    rcases place with ⟨n, _, rfl⟩ | ⟨n, _, rfl⟩
    · exact sleeps
    · trivial
  · intro n here
    rw [own] at here
    rcases place with ⟨m, _, rfl⟩ | ⟨m, _, rfl⟩ <;> cases here
  · refine inv.awake_of cur (by rw [kernels]; exact current) others waits ?_
    intro o here
    rw [own] at here
    rcases place with ⟨m, _, rfl⟩ | ⟨m, _, rfl⟩ <;> cases here

theorem Inv.step (inv : Inv s) (moved : apply s label = some t) (away : Away s label) : Inv t := by
  cases label with
  | tick cpu =>
    obtain ⟨kernel, ran, rfl⟩ := map_eq_some_iff.mp moved
    have kept := inv.schedule ran (.inl rfl)
    rwa [System.goto, show (s.setKernel kernel).pc = s.pc from rfl, update_eq_self] at kept
  | spawn epoch thr =>
    simp only [apply, ite_none_right_eq_some] at moved
    exact inv.spawn moved.1 (away thr rfl) moved.2
  | chanLock cpu n =>
    simp only [apply, ite_none_right_eq_some, some.injEq] at moved
    obtain ⟨⟨here, unlocked⟩, rfl⟩ := moved
    have awake := inv.phases (s.current cpu)
    rw [Phase, here] at awake
    exact inv.goto (unlisted_of here (.inl rfl)) awake (.inr (.inl ⟨n, rfl⟩)) rfl rfl rfl
      (fun m => lock_setLock_chan s n m (some (s.current cpu)))
  | setWaiting epoch cpu =>
    simp only [apply] at moved
    split at moved
    · rename_i n here
      obtain ⟨kernel, ran, rfl⟩ := map_eq_some_iff.mp moved
      exact inv.setWaiting ran (.inl ⟨n, here, rfl⟩) rfl rfl rfl (fun _ _ _ owner => owner)
    · rename_i n here
      obtain ⟨kernel, ran, rfl⟩ := map_eq_some_iff.mp moved
      refine inv.setWaiting ran (.inr ⟨n, here, rfl⟩) rfl rfl rfl ?_
      intro x other m owner
      refine (lock_setLock_sema _ n m none).trans ?_
      rw [if_neg]
      · exact owner
      · rintro rfl
        rw [inv.held _ m here] at owner
        exact other (some.inj owner).symm
    · cases moved
  | publish cpu =>
    simp only [apply] at moved
    split at moved
    · rename_i n here
      obtain rfl := some.inj moved
      have sleeps := inv.phases (s.current cpu)
      rw [Phase, here] at sleeps
      refine inv.enqueue (o := .chan n)
        (unlisted_of here (.inr (.inr (.inr ⟨n, rfl⟩)))) rfl rfl ?_
        (.inl ⟨⟨n, rfl, rfl⟩, sleeps⟩) ?_
      · exact fun p => queue_setChan s n _ p
      · exact fun x _ m owner => (lock_setLock_chan _ n m none).trans owner
    · cases moved
  | acquire cpu n =>
    simp only [apply, ite_none_right_eq_some, some.injEq] at moved
    obtain ⟨here, rfl⟩ := moved
    have awake := inv.phases (s.current cpu)
    rw [Phase, here] at awake
    exact inv.goto (unlisted_of here (.inl rfl)) awake (.inr (.inr ⟨n, rfl⟩)) rfl rfl rfl
      (fun _ => rfl)
  | pass cpu =>
    simp only [apply] at moved
    split at moved
    · rename_i n here
      have awake := inv.phases (s.current cpu)
      rw [Phase, here] at awake
      have unlisted := unlisted_of here (.inr (.inr (.inl ⟨n, rfl⟩)))
      by_cases unlocked : s.lock (.sema n) = none
      · rw [if_pos unlocked] at moved
        unfold semaphore_Acquire at moved
        by_cases available : (s.sema n).count > 0
        · simp only [available, ↓reduceIte, some.injEq] at moved
          subst moved
          refine inv.goto unlisted awake (.inl rfl) rfl rfl ?_ (fun _ => rfl)
          funext p
          refine (queue_setSema s n _ p).trans ?_
          split
          · rename_i same
            rw [same]
            rfl
          · rfl
        · simp only [available, ↓reduceIte, some.injEq] at moved
          subst moved
          refine inv.enqueue (o := .sema n) unlisted rfl rfl (fun p => queue_setSema s n _ p)
            (.inr ⟨⟨n, rfl, rfl, ?_⟩, awake⟩) ?_
          · exact (lock_setLock_sema _ n n _).trans (if_pos rfl)
          · intro x _ m owner
            refine (lock_setLock_sema _ n m _).trans ?_
            rw [if_neg]
            · exact owner
            · rintro rfl
              rw [unlocked] at owner
              cases owner
      · rw [if_neg unlocked] at moved
        cases moved
    · cases moved
  | leave cpu =>
    simp only [apply] at moved
    split at moved
    · rename_i o here
      obtain ⟨kernel, ran, rfl⟩ := map_eq_some_iff.mp moved
      exact inv.schedule ran (.inr ⟨o, here, rfl⟩)
    · cases moved
  | resume cpu =>
    have awake : ∀ o, s.pc (s.current cpu) = .parked o → s.kernel.state (s.current cpu) ≠ .waiting :=
      fun o here => inv.awake cpu o here
    have unlisted : ∀ o, s.pc (s.current cpu) = .parked o → ∀ p, ¬ Listed s (s.current cpu) p := by
      intro o here p
      unfold Listed
      rw [here]
      simp [awake o here]
    simp only [apply] at moved
    split at moved
    · rename_i n here
      obtain rfl := some.inj moved
      exact inv.goto (unlisted _ here) (awake _ here) (.inl rfl) rfl rfl rfl (fun _ => rfl)
    · rename_i n here
      obtain rfl := some.inj moved
      exact inv.goto (unlisted _ here) (awake _ here) (.inr (.inr ⟨n, rfl⟩)) rfl rfl rfl
        (fun _ => rfl)
    · cases moved
  | wake epoch n =>
    simp only [apply, ite_none_right_eq_some] at moved
    obtain ⟨unlocked, ran⟩ := moved
    cases queue : s.chanQueue n with
    | nil =>
      have same : s.setChan n [] = s := by
        rw [System.setChan, ← queue, update_eq_self]
      rw [queue, tail_nil, same] at ran
      obtain rfl := some.inj ran
      exact inv
    | cons thr rest =>
      rw [queue] at ran
      exact inv.wakeup (u := s.setChan n rest) (o := .chan n) queue unlocked
        (away thr (by simp [wakes, System.queue, queue])) rfl rfl rfl
        (fun p => queue_setChan s n rest p) ran
  | release epoch n =>
    simp only [apply, ite_none_right_eq_some] at moved
    obtain ⟨unlocked, ran⟩ := moved
    unfold semaphore_Release at ran
    cases queue : (s.sema n).waiters with
    | nil =>
      simp only [queue] at ran
      obtain rfl := some.inj ran
      have queues : ∀ p, (s.setSema n ⟨wrap32 ((s.sema n).count + 1), []⟩).queue p = s.queue p := by
        intro p
        rw [queue_setSema]
        split
        · rename_i same
          rw [same]
          exact queue.symm
        · rfl
      refine ⟨inv.placed, ?_, ?_, inv.phases, inv.held, inv.awake⟩
      · intro o
        rw [queues]
        exact inv.distinct o
      · intro o thr
        rw [queues]
        exact inv.listed o thr
    | cons thr rest =>
      simp only [queue] at ran
      exact inv.wakeup (u := s.setSema n ⟨wrap32 ((s.sema n).count + 1), rest⟩) (o := .sema n)
        queue unlocked (away thr (by simp [wakes, System.queue, queue])) rfl rfl rfl
        (fun p => queue_setSema s n _ p) ran

theorem Inv.breaks (inv : Inv s) (moved : apply s label = some t)
    (stays : ¬ Away s label) : ¬ t.kernel.Safe := by
  obtain ⟨thr, woken, cpu, current⟩ : ∃ thr, wakes s label = some thr ∧ ∃ cpu, s.current cpu = thr := by
    unfold Away at stays
    push Not at stays
    exact stays
  cases label with
  | spawn epoch new =>
    obtain rfl := some.inj woken
    simp only [apply, ite_none_right_eq_some] at moved
    refine setRunnable_unsafe inv.placed.agreement ?_ current moved.2
    rw [moved.1]
    decide
  | wake epoch n =>
    simp only [apply, ite_none_right_eq_some] at moved
    obtain ⟨unlocked, ran⟩ := moved
    have sleeps := (inv.asleep (o := .chan n) (mem_of_mem_head? woken) unlocked).2
    rw [show (s.chanQueue n).head? = some thr from woken] at ran
    refine setRunnable_unsafe (s := s.setChan n (s.chanQueue n).tail) inv.placed.agreement ?_ current ran
    show s.kernel.state thr ≠ .runnable
    rw [sleeps]
    decide
  | release epoch n =>
    simp only [apply, ite_none_right_eq_some] at moved
    obtain ⟨unlocked, ran⟩ := moved
    have sleeps := (inv.asleep (o := .sema n) (mem_of_mem_head? woken) unlocked).2
    have taken : (semaphore_Release (s.sema n)).1 = some thr := by
      rw [semaphore_Release_head]
      exact woken
    rw [taken] at ran
    refine setRunnable_unsafe (s := s.setSema n (semaphore_Release (s.sema n)).2)
      inv.placed.agreement ?_ current ran
    show s.kernel.state thr ≠ .runnable
    rw [sleeps]
    decide
  | tick | chanLock | setWaiting | publish | acquire | pass | leave | resume => cases woken

/-- A thread has at most one CPU, and none while it is on `runnableQueue`, exactly along the
runs in which every thread that is woken up has left its CPU before. -/
theorem one_cpu_iff_woken_away (started : Started s) (labels : List (Label Cpu)) :
    Along apply (fun _ _ t => t.kernel.Safe) s labels ↔ Along apply (fun s label _ => Away s label) s labels := by
  refine along_iff Inv ?_ ?_ started.inv labels
  · intro s label t inv moved away
    have kept := inv.step moved away
    exact ⟨kept.safe, kept⟩
  · intro s label t inv moved stays
    exact inv.breaks moved stays

/-- The queue of a wait channel has the threads that sleep on it, each once, and `WaitChannel_Wake`
hands the first of them to the scheduler. -/
structure Kept (s : System Cpu) (n : Nat) : Prop where
  once : (s.chanQueue n).Nodup
  asleep : ∀ thr, thr ∈ s.chanQueue n ↔
    (s.pc thr = .leaving (.chan n) ∨ s.pc thr = .parked (.chan n)) ∧ s.kernel.state thr = .waiting
  woken : ∀ thr rest epoch, s.chanQueue n = thr :: rest → s.lock (.chan n) = none →
    ∃ t, apply s (.wake epoch n) = some t ∧ t.chanQueue n = rest ∧
      t.kernel.runnableQueue = s.kernel.runnableQueue ++ [thr]

theorem Inv.kept (inv : Inv s) (n : Nat) : Kept s n := by
  refine ⟨inv.distinct (.chan n), fun thr => (inv.listed (.chan n) thr).trans ⟨?_, .inr⟩, ?_⟩
  · rintro (⟨_, _, other⟩ | asleep)
    · cases other
    · exact asleep
  · intro thr rest epoch queue free
    have member : thr ∈ s.queue (.chan n) := by simp [System.queue, queue]
    have sleeps : s.kernel.state thr ≠ .runnable := by simp [(inv.asleep member free).2]
    obtain ⟨kernel, set, _, _, last, _⟩ := sched_SetRunnable_sets inv.placed.agreement epoch sleeps
    refine ⟨(s.setChan n rest).setKernel kernel, ?_, update_self .., last⟩
    rw [apply, if_pos free, queue]
    exact congrArg (Option.map _) set

/-- The thread that `WaitChannel_Sleep` puts at the end of a channel's queue in a step. -/
def arrives (n : Nat) (s : System Cpu) : Label Cpu → Option ThreadId
  | .publish cpu => if s.pc (s.current cpu) = .chanWaiting n then some (s.current cpu) else none
  | _ => none

/-- The thread that `WaitChannel_Wake` takes off a channel's queue in a step. -/
def departs (n : Nat) (s : System Cpu) : Label Cpu → Option ThreadId
  | .wake _ m => if m = n then (s.chanQueue n).head? else none
  | _ => none

/-- The threads of the steps of a run, in order. -/
def trace (thread : System Cpu → Label Cpu → Option ThreadId) :
    System Cpu → List (Label Cpu) → List ThreadId
  | _, [] => []
  | s, label :: labels =>
    (thread s label).toList ++
      match apply s label with
      | some t => trace thread t labels
      | none => []

omit [DecidableEq Cpu] in
theorem chanQueue_setRunnable {epoch : Nat} {thr : Option ThreadId}
    (set : s.setRunnable epoch thr = some t) : t.chanQueue = s.chanQueue := by
  cases thr with
  | none => cases set; rfl
  | some thr =>
    obtain ⟨kernel, -, rfl⟩ := Option.map_eq_some_iff.mp set
    rfl

/-- A step takes the head off a queue, or appends to it. -/
theorem chanQueue_step (n : Nat) (moved : apply s label = some t) :
    (departs n s label).toList ++ t.chanQueue n = s.chanQueue n ++ (arrives n s label).toList := by
  cases label with
  | tick cpu | leave cpu | setWaiting epoch cpu =>
    simp only [apply] at moved
    grind [Option.map_eq_some_iff, System.setKernel, System.goto, System.setLock, departs, arrives]
  | chanLock cpu m | acquire cpu m | pass cpu | resume cpu =>
    simp only [apply] at moved
    grind [System.goto, System.setLock, System.setSema, departs, arrives]
  | publish cpu =>
    simp only [apply] at moved
    split at moved
    · rename_i m here
      cases moved
      by_cases same : m = n
      · subst same
        simp [departs, arrives, here, System.setChan, System.setLock, System.goto]
      · have other : n ≠ m := fun same' => same same'.symm
        simp [departs, arrives, here, System.setChan, System.setLock, System.goto, same, other]
    · cases moved
  | spawn epoch thr =>
    simp only [apply] at moved
    split at moved
    · simp [departs, arrives, chanQueue_setRunnable moved]
    · cases moved
  | release epoch m =>
    simp only [apply] at moved
    split at moved
    · simp [departs, arrives, chanQueue_setRunnable moved, System.setSema]
    · cases moved
  | wake epoch m =>
    simp only [apply] at moved
    split at moved
    · rw [chanQueue_setRunnable moved]
      by_cases same : m = n
      · subst same
        cases queue : s.chanQueue m <;> simp [departs, arrives, System.setChan, queue]
      · have other : n ≠ m := fun same' => same same'.symm
        simp [departs, arrives, System.setChan, same, other]
    · cases moved

theorem chanQueue_run (n : Nat) (labels : List (Label Cpu)) {s t : System Cpu}
    (ran : labels.foldlM apply s = some t) :
    trace (departs n) s labels ++ t.chanQueue n = s.chanQueue n ++ trace (arrives n) s labels := by
  induction labels generalizing s with
  | nil =>
    cases ran
    simp [trace]
  | cons label labels ih =>
    obtain ⟨next, moved, rest⟩ := Option.bind_eq_some_iff.mp ran
    simp only [trace, moved]
    rw [List.append_assoc, ih rest, ← List.append_assoc, chanQueue_step n moved, List.append_assoc]

/-- In the same runs no sleeper is lost by its wait channel, and the sleepers are woken up in
their order of arrival. -/
theorem wait_channels_keep_sleepers (started : Started s) (labels : List (Label Cpu))
    (away : Along apply (fun s label _ => Away s label) s labels) :
    Along apply (fun _ _ t => ∀ n, Kept t n) s labels ∧
      ∀ t n, labels.foldlM apply s = some t →
        trace (departs n) s labels ++ t.chanQueue n = trace (arrives n) s labels := by
  constructor
  · refine ((along_iff Inv ?_ ?_ started.inv labels).mpr away).mono
      (fun _ _ _ inv n => Inv.kept inv n)
    · intro s label t inv moved away
      have kept := inv.step moved away
      exact ⟨kept, kept⟩
    · intro s label t inv moved stays kept
      exact inv.breaks moved stays kept.safe
  · intro t n ran
    rw [chanQueue_run n labels ran, started.chans n, List.nil_append]

end

/-- Two CPUs, and nobody asleep. -/
def twoRunners : System (Fin 2) where
  kernel := twoCpus
  chanQueue _ := []
  sema _ := ⟨0, []⟩
  lock _ := none
  pc _ := .idle

theorem twoRunners_started : Started twoRunners := by
  refine ⟨twoCpus_booted, ?_, fun _ => rfl, fun _ => rfl, fun _ => rfl⟩
  intro c d same
  exact Fin.ext same

/-- A sleeper that has been replaced on its CPU before it is woken up. -/
def sleepThenWake : List (Label (Fin 2)) :=
  [.spawn 0 2, .chanLock 0 7, .setWaiting 1 0, .publish 0, .leave 0, .wake 5 7]

instance (s : System (Fin 2)) (label : Label (Fin 2)) : Decidable (Away s label) :=
  match woken : wakes s label with
  | none => isTrue (fun thr found => by rw [woken] at found; cases found)
  | some thr =>
    decidable_of_iff (∀ cpu, s.current cpu ≠ thr)
      ⟨fun away x found => by rw [woken] at found; cases found; exact away,
        fun away => away thr woken⟩

theorem one_cpu_iff_woken_away_replaced :
    (sleepThenWake.foldlM apply twoRunners).isSome ∧
      Along apply (fun _ _ t => t.kernel.Safe) twoRunners sleepThenWake :=
  ⟨by decide +kernel,
    (one_cpu_iff_woken_away twoRunners_started sleepThenWake).mpr (by decide +kernel)⟩

/-- Threads 0 and 1 go to sleep on channel 7, and one of them is woken up. -/
def twoSleepers : List (Label (Fin 2)) :=
  [.spawn 0 2, .spawn 0 3, .chanLock 0 7, .setWaiting 1 0, .publish 0, .leave 0, .chanLock 1 7,
    .setWaiting 2 1, .publish 1, .leave 1, .wake 5 7]

theorem wait_channels_keep_sleepers_two :
    trace (departs 7) twoRunners twoSleepers = [0] ∧
      trace (arrives 7) twoRunners twoSleepers = [0, 1] ∧
      Along apply (fun _ _ t => ∀ n, Kept t n) twoRunners twoSleepers ∧
      ∃ t, twoSleepers.foldlM apply twoRunners = some t ∧ t.chanQueue 7 = [1] := by
  have kept := wait_channels_keep_sleepers twoRunners_started twoSleepers (by decide +kernel)
  have woken : trace (departs 7) twoRunners twoSleepers = [0] := by decide +kernel
  have slept : trace (arrives 7) twoRunners twoSleepers = [0, 1] := by decide +kernel
  obtain ⟨t, ran⟩ := Option.isSome_iff_exists.mp
    (show (twoSleepers.foldlM apply twoRunners).isSome by decide +kernel)
  have order := kept.2 t 7 ran
  rw [woken, slept] at order
  exact ⟨woken, slept, kept.1, t, ran, (List.cons.inj order).2⟩

/-- Thread 0 goes to sleep on CPU 0. CPU 1 wakes it up before it calls `Sched_Scheduler`,
and takes it over at the next timer interrupt. -/
theorem sleeper_woken_on_cpu :
    ∃ s t, [.chanLock 0 7, .setWaiting 1 0, .publish 0, .wake 5 7].foldlM apply twoRunners = some s ∧
      s.current 0 = 0 ∧ s.kernel.runnableQueue = [0] ∧
      apply s (.tick 1) = some t ∧ t.current 0 = 0 ∧ t.current 1 = 0 :=
  ⟨_, _, rfl, rfl, rfl, rfl, rfl, rfl⟩

end BoringOs.Sleep
