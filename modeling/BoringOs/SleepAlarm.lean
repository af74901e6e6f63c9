import BoringOs.KTimer
import BoringOs.Sched

/-! `Syscall_ThreadSleep` and its alarm, after `sys/kern/syscall.c`. The steps of a sleeper are
those between which a timer interrupt may come. A call of `KTimer_Process` is one step, and so is a
`Sched_Scheduler` by the timer. Every application of `ThreadWakeupHelper` is logged with what it
finds. -/

namespace BoringOs.Alarm

open Runs Sched KTimer Function List Option

inductive Pc where
  /-- Not in `Syscall_ThreadSleep`. -/
  | idle
  /-- `KTimer_Create` has returned; the store to `timerEvt` comes next. -/
  | created (evt : EventId)
  /-- `Sched_SetWaiting` comes next. -/
  | stored
  /-- `Sched_Scheduler` comes next. -/
  | leaving
  /-- In `Sched_Scheduler`, until it is scheduled again. -/
  | parked
  deriving DecidableEq

structure Wakeup where
  thr : ThreadId
  state : SchedState
  evt : Option EventId

structure System (Cpu : Type) where
  kernel : Kernel Cpu
  wheel : KTimer.State
  /-- The thread that an event wakes up. -/
  arg : EventId → ThreadId
  timerEvt : ThreadId → Option EventId
  refCount : ThreadId → Nat
  pc : ThreadId → Pc
  woken : List Wakeup
  /-- A failed `ASSERT` or a `NULL` event in `ThreadWakeupHelper`. -/
  halted : Bool

inductive Label (Cpu : Type) where
  /-- `Sched_Scheduler` by the timer interrupt. -/
  | tick (cpu : Cpu)
  /-- `Sched_SetRunnable` of a new thread. -/
  | spawn (epoch : Nat) (thr : ThreadId)
  /-- `Syscall_ThreadSleep` up to the return of `KTimer_Create`. -/
  | sleep (cpu : Cpu) (time : Nat)
  /-- The store to `timerEvt`. -/
  | store (cpu : Cpu)
  | setWaiting (epoch : Nat) (cpu : Cpu)
  /-- `Sched_Scheduler` by the sleeper, and its return with the last `Thread_Release`. -/
  | leave (cpu : Cpu)
  | resume (cpu : Cpu)
  /-- `KTimer_Process` at a clock reading. -/
  | process (now epoch : Nat)

section

variable {Cpu : Type}

def System.current (s : System Cpu) (cpu : Cpu) : ThreadId := s.kernel.curProc cpu

def System.goto (s : System Cpu) (thr : ThreadId) (pc : Pc) : System Cpu :=
  { s with pc := Function.update s.pc thr pc }

def System.setKernel (s : System Cpu) (kernel : Kernel Cpu) : System Cpu := { s with kernel := kernel }

def System.setRefCount (s : System Cpu) (thr : ThreadId) (count : Nat) : System Cpu :=
  { s with refCount := Function.update s.refCount thr count }

def System.stop (s : System Cpu) : System Cpu := { s with halted := true }

def threadWakeupHelper (epoch : Nat) (thr : ThreadId) (s : System Cpu) : System Cpu :=
  let s := { s with woken := s.woken ++ [Wakeup.mk thr (s.kernel.state thr) (s.timerEvt thr)] }
  match sched_SetRunnable epoch thr s.kernel with
  | none => s.stop
  | some kernel =>
    match s.timerEvt thr with
    | none => (s.setKernel kernel).stop
    | some evt =>
      match ktimer_Release evt s.wheel with
      | none => (s.setKernel kernel).stop
      | some wheel =>
        if s.refCount thr = 0 then (s.setKernel kernel).stop
        else { s with
          kernel := kernel
          wheel := wheel
          timerEvt := Function.update s.timerEvt thr none
          refCount := Function.update s.refCount thr (s.refCount thr - 1) }

/-- `LIST_REMOVE` and the release of the wheel's reference. -/
def System.drop (s : System Cpu) (it : EventId) : System Cpu :=
  if s.halted then s
  else
    match dropWheel it s.wheel with
    | none => s.stop
    | some wheel => { s with wheel := wheel }

/-- The body of the inner loop of `KTimer_Process`, with the callback of a sleep. -/
def dispatch (now epoch : Nat) (s : System Cpu) (it : EventId) : System Cpu :=
  if s.halted then s
  else if (s.wheel.event it).timeout ≤ now then (threadWakeupHelper epoch (s.arg it) s).drop it
  else s

def System.rotate (s : System Cpu) : System Cpu := { s with wheel := s.wheel.rotate }

/-- The outer loop of `KTimer_Process`. -/
def processLoop (now epoch : Nat) : Nat → System Cpu → System Cpu
  | 0, s => s
  | rounds + 1, s =>
    processLoop now epoch rounds
      ((s.wheel.timerSlot s.wheel.timerHead).foldl (dispatch now epoch) s).rotate

def apply [DecidableEq Cpu] (s : System Cpu) (label : Label Cpu) : Option (System Cpu) :=
  if s.halted then none
  else
    match label with
    | .tick cpu => (sched_Scheduler cpu s.kernel).map s.setKernel
    | .spawn epoch thr =>
      if s.kernel.state thr = .null then (sched_SetRunnable epoch thr s.kernel).map s.setKernel else none
    | .sleep cpu time =>
      let cur := s.current cpu
      if s.pc cur = .idle ∧ 1 ≤ time then
        let evt := s.wheel.allocated
        some (({ s with
          wheel := ktimer_Create time true s.wheel
          arg := Function.update s.arg evt cur }.setRefCount cur (s.refCount cur + 2)).goto cur (.created evt))
      else none
    | .store cpu =>
      let cur := s.current cpu
      match s.pc cur with
      | .created evt =>
        some ({ s with timerEvt := Function.update s.timerEvt cur (some evt) }.goto cur .stored)
      | _ => none
    | .setWaiting epoch cpu =>
      let cur := s.current cpu
      if s.pc cur = .stored then
        (sched_SetWaiting epoch cur s.kernel).map (fun kernel => (s.setKernel kernel).goto cur .leaving)
      else none
    | .leave cpu =>
      let cur := s.current cpu
      if s.pc cur = .leaving then
        (sched_Scheduler cpu s.kernel).map (fun kernel => (s.setKernel kernel).goto cur .parked)
      else none
    | .resume cpu =>
      let cur := s.current cpu
      if s.pc cur = .parked ∧ s.refCount cur ≠ 0 then
        some ((s.setRefCount cur (s.refCount cur - 1)).goto cur .idle)
      else none
    | .process now epoch => some (processLoop now epoch (now - s.wheel.timerNow) s)

/-- The thread sleeps because of `Syscall_ThreadSleep`. -/
def Asleep (s : System Cpu) (thr : ThreadId) : Prop :=
  (s.pc thr = .leaving ∨ s.pc thr = .parked) ∧ s.kernel.state thr = .waiting

/-- A sleeper has an event on the wheel that has not fired, wakeups find a sleeper and its event, and a
thread that is not in the call has as many references as before. -/
structure Alarmed (base : ThreadId → Nat) (s : System Cpu) : Prop where
  pending : ∀ thr, Asleep s thr → ∃ evt, Pending s.wheel evt ∧ s.arg evt = thr
  woken : ∀ w ∈ s.woken, w.state = .waiting ∧ w.evt ≠ none
  references : ∀ thr, s.pc thr = .idle → s.refCount thr = base thr

/-- The thread has called `Sched_SetWaiting` and has left its CPU. -/
def Gone (s : System Cpu) (thr : ThreadId) : Prop :=
  (s.pc thr = .leaving ∨ s.pc thr = .parked) ∧ ∀ cpu, s.current cpu ≠ thr

def WakesGone (s : System Cpu) (t : System Cpu) : Prop :=
  ∀ w ∈ t.woken.drop s.woken.length, Gone s w.thr

/-- All CPUs run different threads, nobody sleeps and the wheel is empty. -/
structure Started (s : System Cpu) : Prop where
  booted : Booted s.kernel
  single : ∀ c d, s.current c = s.current d → c = d
  running : ∀ cpu, s.kernel.state (s.current cpu) = .running
  wheel : ∀ i, s.wheel.timerSlot i = []
  threads : ∀ thr, s.timerEvt thr = none ∧ s.pc thr = .idle
  woken : s.woken = [] ∧ s.halted = false

structure Armed (s : System Cpu) (thr : ThreadId) (evt : EventId) : Prop where
  pending : Pending s.wheel evt
  arg : s.arg evt = thr
  references : (s.wheel.event evt).refCount = 2

def Phase (base : ThreadId → Nat) (s : System Cpu) (thr : ThreadId) : Prop :=
  match s.pc thr with
  | .idle => s.kernel.state thr ≠ .waiting ∧ s.refCount thr = base thr ∧ s.timerEvt thr = none
  | .created evt => s.kernel.state thr ≠ .waiting ∧ s.refCount thr = base thr + 2 ∧
      s.timerEvt thr = none ∧ Armed s thr evt
  | .stored => s.kernel.state thr ≠ .waiting ∧ s.refCount thr = base thr + 2 ∧
      ∃ evt, s.timerEvt thr = some evt ∧ Armed s thr evt
  | .leaving | .parked =>
    (s.kernel.state thr = .waiting ∧ s.refCount thr = base thr + 2 ∧
      ∃ evt, s.timerEvt thr = some evt ∧ Armed s thr evt) ∨
    (s.kernel.state thr ≠ .waiting ∧ s.refCount thr = base thr + 1 ∧ s.timerEvt thr = none)

structure Inv (base : ThreadId → Nat) (s : System Cpu) : Prop where
  placed : Placed s.kernel
  live : s.halted = false
  phases : ∀ thr, Phase base s thr
  owned : ∀ evt, Pending s.wheel evt →
    s.pc (s.arg evt) = .created evt ∨ s.timerEvt (s.arg evt) = some evt
  known : ∀ evt, Pending s.wheel evt → evt < s.wheel.allocated
  distinct : ∀ i, (s.wheel.timerSlot i).Nodup
  awake : ∀ cpu, s.pc (s.current cpu) = .parked → s.kernel.state (s.current cpu) ≠ .waiting
  active : ∀ cpu, s.kernel.state (s.current cpu) ≠ .null
  woken : ∀ w ∈ s.woken, w.state = .waiting ∧ w.evt ≠ none

/-- A wakeup has found something else than a sleeper with its event, or a thread on a CPU. -/
def Bad (s : System Cpu) : Prop :=
  (∃ w ∈ s.woken, ¬ (w.state = .waiting ∧ w.evt ≠ none)) ∨
    ∃ cpu, s.current cpu ∈ s.kernel.runnableQueue

end

variable {Cpu : Type} {base : ThreadId → Nat} {s t : System Cpu}

variable {kernel : Kernel Cpu} {cpu : Cpu} {thr cur : ThreadId} {it : EventId} {epoch : Nat}

section

variable {u : System Cpu}

/-- What no part of `KTimer_Process` undoes. -/
structure Extends (s t : System Cpu) : Prop where
  woken : ∃ new, t.woken = s.woken ++ new
  queued : ∀ thr ∈ s.kernel.runnableQueue, thr ∈ t.kernel.runnableQueue
  current : t.kernel.curProc = s.kernel.curProc
  pc : t.pc = s.pc

theorem Extends.refl (s : System Cpu) : Extends s s :=
  ⟨⟨[], (append_nil _).symm⟩, fun _ member => member, rfl, rfl⟩

theorem Extends.trans (first : Extends s t) (second : Extends t u) : Extends s u := by
  obtain ⟨new, log⟩ := first.woken
  obtain ⟨more, log'⟩ := second.woken
  exact ⟨⟨new ++ more, by rw [log', log, append_assoc]⟩,
    fun thr member => second.queued thr (first.queued thr member),
    second.current.trans first.current, second.pc.trans first.pc⟩

theorem sched_SetRunnable_queues {kernel next : Kernel Cpu}
    (ran : sched_SetRunnable epoch thr kernel = some next) :
    next.runnableQueue = kernel.runnableQueue ++ [thr] ∧ next.curProc = kernel.curProc := by
  obtain ⟨stopped, stops, inserts⟩ := bind_eq_some_iff.mp ran
  have ready : (readyProc thr kernel).runnableQueue = kernel.runnableQueue ∧
      (readyProc thr kernel).curProc = kernel.curProc := by
    unfold readyProc
    dsimp only
    split <;> exact ⟨rfl, rfl⟩
  have same : stopped.runnableQueue = kernel.runnableQueue ∧ stopped.curProc = kernel.curProc := by
    unfold stopWaiting at stops
    split at stops
    · split at stops
      · cases stops
        exact ready
      · cases stops
    · cases stops
      exact ready
  unfold insertRunnable at inserts
  split at inserts
  · cases inserts
  · cases inserts
    exact ⟨congrArg (· ++ [thr]) same.1, same.2⟩

theorem threadWakeupHelper_woken (epoch : Nat) (thr : ThreadId) (s : System Cpu) :
    (threadWakeupHelper epoch thr s).woken = s.woken ++ [⟨thr, s.kernel.state thr, s.timerEvt thr⟩] := by
  unfold threadWakeupHelper
  dsimp only
  split
  · rfl
  · split
    · rfl
    · split
      · rfl
      · split <;> rfl

theorem threadWakeupHelper_extends (epoch : Nat) (thr : ThreadId) (s : System Cpu) :
    Extends s (threadWakeupHelper epoch thr s) := by
  unfold threadWakeupHelper
  dsimp only
  cases ran : sched_SetRunnable epoch thr s.kernel with
  | none => exact ⟨⟨_, rfl⟩, fun _ member => member, rfl, rfl⟩
  | some kernel =>
    obtain ⟨queue, current⟩ := sched_SetRunnable_queues ran
    have kept : ∀ x ∈ s.kernel.runnableQueue, x ∈ kernel.runnableQueue := by
      rw [queue]
      exact fun x member => mem_append_left _ member
    dsimp only
    split
    · exact ⟨⟨_, rfl⟩, kept, current, rfl⟩
    · split
      · exact ⟨⟨_, rfl⟩, kept, current, rfl⟩
      · split
        · exact ⟨⟨_, rfl⟩, kept, current, rfl⟩
        · exact ⟨⟨_, rfl⟩, kept, current, rfl⟩

theorem drop_extends (s : System Cpu) (it : EventId) : Extends s (s.drop it) := by
  unfold System.drop
  split
  · exact Extends.refl s
  · split
    · exact ⟨⟨[], (append_nil _).symm⟩, fun _ member => member, rfl, rfl⟩
    · exact ⟨⟨[], (append_nil _).symm⟩, fun _ member => member, rfl, rfl⟩

theorem dispatch_extends (now epoch : Nat) (s : System Cpu) (it : EventId) :
    Extends s (dispatch now epoch s it) := by
  unfold dispatch
  split
  · exact Extends.refl s
  · split
    · exact (threadWakeupHelper_extends epoch _ s).trans (drop_extends _ it)
    · exact Extends.refl s

theorem foldl_dispatch_extends (now epoch : Nat) (items : List EventId) (s : System Cpu) :
    Extends s (items.foldl (dispatch now epoch) s) := by
  induction items generalizing s with
  | nil => exact Extends.refl s
  | cons it items ih => exact (dispatch_extends now epoch s it).trans (ih _)

theorem rotate_extends (s : System Cpu) : Extends s s.rotate :=
  ⟨⟨[], (append_nil _).symm⟩, fun _ member => member, rfl, rfl⟩

theorem processLoop_extends (now epoch rounds : Nat) (s : System Cpu) :
    Extends s (processLoop now epoch rounds s) := by
  induction rounds generalizing s with
  | zero => exact Extends.refl s
  | succ rounds ih =>
    exact (foldl_dispatch_extends now epoch _ s).trans ((rotate_extends _).trans (ih _))

theorem Bad.extends (bad : Bad s) (extended : Extends s t) : Bad t := by
  obtain ⟨new, log⟩ := extended.woken
  rcases bad with ⟨w, member, wrong⟩ | ⟨cpu, queued⟩
  · refine .inl ⟨w, ?_, wrong⟩
    rw [log]
    exact mem_append_left _ member
  · refine .inr ⟨cpu, extended.queued _ ?_⟩
    rw [System.current, extended.current]
    exact queued

theorem Bad.refutes (bad : Bad s) (alarmed : Alarmed base s) (safe : s.kernel.Safe) : False := by
  rcases bad with ⟨w, member, wrong⟩ | ⟨cpu, queued⟩
  · exact wrong (alarmed.woken w member)
  · exact safe.unqueued cpu queued

theorem Gone.extends (extended : Extends s t) : Gone t thr ↔ Gone s thr := by
  unfold Gone System.current
  rw [extended.pc, extended.current]

structure Outcome (base : ThreadId → Nat) (s t : System Cpu) : Prop where
  extended : Extends s t
  result : ∃ new, t.woken = s.woken ++ new ∧
    ((Inv base t ∧ ∀ w ∈ new, Gone s w.thr) ∨ (Bad t ∧ ∃ w ∈ new, ¬ Gone s w.thr))

theorem Outcome.trans (first : Outcome base s t) (second : Inv base t → Outcome base t u)
    (later : Extends t u) : Outcome base s u := by
  refine ⟨first.extended.trans later, ?_⟩
  obtain ⟨new, log, ⟨inv, gone⟩ | ⟨bad, w, member, stays⟩⟩ := first.result
  · obtain ⟨more, log', result⟩ := (second inv).result
    refine ⟨new ++ more, by rw [log', log, append_assoc], ?_⟩
    rcases result with ⟨inv, gone'⟩ | ⟨bad, w, member, stays⟩
    · refine .inl ⟨inv, fun w member => ?_⟩
      rcases mem_append.mp member with old | new
      · exact gone w old
      · exact (Gone.extends first.extended).mp (gone' w new)
    · refine .inr ⟨bad, w, mem_append_right _ member, ?_⟩
      rwa [← Gone.extends first.extended]
  · obtain ⟨more, log'⟩ := later.woken
    refine ⟨new ++ more, by rw [log', log, append_assoc], .inr ⟨bad.extends later, w, ?_, stays⟩⟩
    exact mem_append_left _ member

theorem Outcome.refl (inv : Inv base s) : Outcome base s s :=
  ⟨Extends.refl s, [], (append_nil _).symm, .inl ⟨inv, fun w member => by cases member⟩⟩

theorem Phase.congr (phase : Phase base s thr) (pc : t.pc thr = s.pc thr)
    (state : t.kernel.state thr = .waiting ↔ s.kernel.state thr = .waiting)
    (references : t.refCount thr = s.refCount thr) (event : t.timerEvt thr = s.timerEvt thr)
    (armed : ∀ evt, Armed s thr evt → Armed t thr evt) : Phase base t thr := by
  unfold Phase at phase ⊢
  rw [pc, references, event]
  cases here : s.pc thr with
  | idle =>
    rw [here] at phase
    exact ⟨mt state.mp phase.1, phase.2⟩
  | created evt =>
    rw [here] at phase
    exact ⟨mt state.mp phase.1, phase.2.1, phase.2.2.1, armed evt phase.2.2.2⟩
  | stored =>
    rw [here] at phase
    obtain ⟨awake, count, evt, stored, alarm⟩ := phase
    exact ⟨mt state.mp awake, count, evt, stored, armed evt alarm⟩
  | leaving | parked =>
    rw [here] at phase
    rcases phase with ⟨waits, count, evt, stored, alarm⟩ | ⟨awake, rest⟩
    · exact .inl ⟨state.mpr waits, count, evt, stored, armed evt alarm⟩
    · exact .inr ⟨mt state.mp awake, rest⟩

theorem Inv.rotate (inv : Inv base s) : Inv base s.rotate where
  placed := inv.placed
  live := inv.live
  phases thr := (inv.phases thr).congr rfl Iff.rfl rfl rfl
    (fun _ armed => ⟨armed.pending, armed.arg, armed.references⟩)
  owned := inv.owned
  known := inv.known
  distinct := inv.distinct
  awake := inv.awake
  active := inv.active
  woken := inv.woken

theorem Inv.owner (inv : Inv base s) (pending : Pending s.wheel it) :
    s.kernel.state (s.arg it) ≠ .waiting ∧ ¬ (s.pc (s.arg it) = .leaving ∨ s.pc (s.arg it) = .parked) ∨
      (s.pc (s.arg it) = .leaving ∨ s.pc (s.arg it) = .parked) ∧ s.kernel.state (s.arg it) = .waiting ∧
        s.refCount (s.arg it) = base (s.arg it) + 2 ∧ s.timerEvt (s.arg it) = some it ∧
        Armed s (s.arg it) it := by
  have phase := inv.phases (s.arg it)
  unfold Phase at phase
  rcases inv.owned it pending with here | stored
  · rw [here] at phase
    exact .inl ⟨phase.1, by rw [here]; rintro (other | other) <;> cases other⟩
  · cases here : s.pc (s.arg it) with
    | idle =>
      rw [here] at phase
      rw [phase.2.2] at stored
      cases stored
    | created evt =>
      rw [here] at phase
      rw [phase.2.2.1] at stored
      cases stored
    | stored =>
      rw [here] at phase
      exact .inl ⟨phase.1, by rintro (other | other) <;> cases other⟩
    | leaving | parked =>
      rw [here] at phase
      rcases phase with ⟨waits, count, evt, event, armed⟩ | ⟨_, _, none⟩
      · obtain rfl : evt = it := some.inj (event.symm.trans stored)
        exact .inr ⟨by simp, waits, count, event, armed⟩
      · rw [none] at stored
        cases stored

theorem ktimer_Release_drops (evt : EventId) (wheel : KTimer.State)
    (some_ : (wheel.event evt).refCount ≠ 0) :
    ∃ next, ktimer_Release evt wheel = some next ∧ next.timerSlot = wheel.timerSlot ∧
      next.allocated = wheel.allocated ∧ (next.event evt).refCount + 1 = (wheel.event evt).refCount ∧
      ∀ x, x ≠ evt → next.event x = wheel.event x := by
  unfold ktimer_Release
  dsimp only
  rw [if_neg some_]
  refine ⟨_, rfl, rfl, rfl, ?_, fun x other => ?_⟩
  · simp only [update_self]
    exact Nat.sub_add_cancel (Nat.pos_of_ne_zero some_)
  · exact update_of_ne other ..

theorem wakeup_drops
    (live : s.halted = false) (runs : sched_SetRunnable epoch thr s.kernel = some kernel)
    (stored : s.timerEvt thr = some it) (two : (s.wheel.event it).refCount = 2)
    (held : s.refCount thr ≠ 0) :
    ∃ wheel, (threadWakeupHelper epoch thr s).drop it = { s with
        kernel := kernel
        wheel := wheel
        timerEvt := update s.timerEvt thr none
        refCount := update s.refCount thr (s.refCount thr - 1)
        woken := s.woken ++ [⟨thr, s.kernel.state thr, s.timerEvt thr⟩] } ∧
      wheel.timerSlot = (fun i => (s.wheel.timerSlot i).erase it) ∧
      wheel.allocated = s.wheel.allocated ∧ ∀ x, x ≠ it → wheel.event x = s.wheel.event x := by
  obtain ⟨first, released, slots, allocated, count, events⟩ :=
    ktimer_Release_drops it s.wheel (show (s.wheel.event it).refCount ≠ 0 by omega)
  obtain ⟨second, dropped, slots', allocated', _, events'⟩ := ktimer_Release_drops it { first with
      timerSlot := fun i => (first.timerSlot i).erase it
      dropped := first.dropped ++ [it] } (show (first.event it).refCount ≠ 0 by omega)
  refine ⟨second, ?_, ?_, allocated'.trans allocated, fun x other => ?_⟩
  · unfold threadWakeupHelper System.drop
    simp only [runs, stored, released, held, live, dropWheel, dropped, if_false, Bool.false_eq_true]
  · rw [slots']
    exact congrArg (fun slot i => (slot i : List EventId).erase it) slots
  · exact (events' x other).trans (events x other)

theorem phase_sleeper (call : s.pc thr = .leaving ∨ s.pc thr = .parked) :
    Phase base s thr ↔
      (s.kernel.state thr = .waiting ∧ s.refCount thr = base thr + 2 ∧
        ∃ evt, s.timerEvt thr = some evt ∧ Armed s thr evt) ∨
      (s.kernel.state thr ≠ .waiting ∧ s.refCount thr = base thr + 1 ∧ s.timerEvt thr = none) := by
  unfold Phase
  rcases call with here | here <;> rw [here]

section

variable (inv : Inv base s)
include inv

theorem Inv.fire (epoch : Nat) (pending : Pending s.wheel it) (gone : Gone s (s.arg it)) :
    Inv base ((threadWakeupHelper epoch (s.arg it) s).drop it) ∧
      ∀ x, Pending ((threadWakeupHelper epoch (s.arg it) s).drop it).wheel x ↔
        Pending s.wheel x ∧ x ≠ it := by
  rcases inv.owner pending with ⟨_, outside⟩ | ⟨call, waits, count, stored, armed⟩
  · exact absurd gone.1 outside
  have fresh : s.kernel.state (s.arg it) ≠ .runnable := by
    rw [waits]
    decide
  obtain ⟨kernel, runs, states, current, -, -⟩ :=
    sched_SetRunnable_sets inv.placed.agreement epoch fresh
  obtain ⟨wheel, fired, slots, allocated, events⟩ :=
    wakeup_drops inv.live runs stored armed.references (by omega)
  have left : ∀ x, Pending wheel x ↔ Pending s.wheel x ∧ x ≠ it := by
    intro x
    rw [← pending_erase it inv.distinct x]
    unfold Pending
    rw [slots]
  rw [fired]
  refine ⟨?_, left⟩
  exact {
    placed := inv.placed.setRunnable fresh gone.2 runs
    live := inv.live
    phases := by
      intro thr
      by_cases same : thr = s.arg it
      · subst same
        refine (phase_sleeper ?_).mpr (.inr ⟨?_, ?_, update_self ..⟩)
        · exact call
        · show kernel.state _ ≠ _
          rw [states, update_self]
          decide
        · show update s.refCount _ _ _ = _
          rw [update_self, count]
          rfl
      · refine (inv.phases thr).congr rfl ?_ (update_of_ne same ..)
          (update_of_ne same ..) ?_
        · show kernel.state thr = _ ↔ _
          rw [states, update_of_ne same]
        · intro evt armed
          have other : evt ≠ it := fun eq => same (by rw [← armed.arg, eq])
          refine ⟨(left evt).mpr ⟨armed.pending, other⟩, armed.arg, ?_⟩
          show (wheel.event evt).refCount = 2
          rw [events evt other]
          exact armed.references
    owned := by
      intro evt was
      obtain ⟨was, other⟩ := (left evt).mp was
      rcases inv.owned evt was with here | held
      · exact .inl here
      · refine .inr ?_
        show update s.timerEvt _ _ _ = _
        rwa [update_of_ne]
        intro same
        rw [same, stored] at held
        exact other (some.inj held).symm
    known := by
      intro evt was
      show evt < wheel.allocated
      rw [allocated]
      exact inv.known evt ((left evt).mp was).1
    distinct := by
      intro i
      show (wheel.timerSlot i).Nodup
      rw [slots]
      exact (inv.distinct i).erase it
    awake := by
      intro cpu parked
      show kernel.state (kernel.curProc cpu) ≠ _
      replace parked : s.pc (kernel.curProc cpu) = .parked := parked
      rw [current] at parked ⊢
      have away : s.kernel.curProc cpu ≠ s.arg it := gone.2 cpu
      rw [states, update_of_ne away]
      exact inv.awake cpu parked
    active := by
      intro cpu
      show kernel.state (kernel.curProc cpu) ≠ _
      have away : s.kernel.curProc cpu ≠ s.arg it := gone.2 cpu
      rw [current, states, update_of_ne away]
      exact inv.active cpu
    woken := by
      intro w member
      rcases mem_append.mp member with old | new
      · exact inv.woken w old
      · obtain rfl := mem_singleton.mp new
        exact ⟨waits, by rw [stored]; exact some_ne_none it⟩ }

theorem Inv.misfire (epoch : Nat) (pending : Pending s.wheel it)
    (stays : ¬ Gone s (s.arg it)) : Bad (threadWakeupHelper epoch (s.arg it) s) := by
  have extended := threadWakeupHelper_extends epoch (s.arg it) s
  rcases inv.owner pending with ⟨awake, _⟩ | ⟨call, waits, count, stored, armed⟩
  · refine .inl ⟨⟨s.arg it, s.kernel.state (s.arg it), s.timerEvt (s.arg it)⟩, ?_, fun fine => awake fine.1⟩
    rw [threadWakeupHelper_woken]
    exact mem_append_right _ mem_cons_self
  · have here : ∃ cpu, s.current cpu = s.arg it := by
      by_contra away
      exact stays ⟨call, fun cpu same => away ⟨cpu, same⟩⟩
    obtain ⟨cpu, current⟩ := here
    have fresh : s.kernel.state (s.arg it) ≠ .runnable := by
      rw [waits]
      decide
    obtain ⟨kernel, runs, _, _, queue, _⟩ :=
      sched_SetRunnable_sets inv.placed.agreement epoch fresh
    refine .inr ⟨cpu, ?_⟩
    rw [System.current, extended.current, show s.kernel.curProc cpu = s.arg it from current]
    have queued : s.arg it ∈ kernel.runnableQueue := by
      rw [queue]
      exact mem_append_right _ mem_cons_self
    unfold threadWakeupHelper
    dsimp only
    rw [runs, stored]
    dsimp only
    split
    · exact queued
    · split
      · exact queued
      · exact queued

theorem Inv.safe : s.kernel.Safe := by
  refine ⟨inv.placed.single, fun cpu queued => ?_⟩
  exact inv.placed.current cpu (inv.placed.agreement.mem_runnable.mp queued)

theorem Inv.alarmed : Alarmed base s := by
  refine ⟨fun thr asleep => ?_, inv.woken, fun thr idle => ?_⟩
  · rcases (phase_sleeper asleep.1).mp (inv.phases thr) with ⟨_, _, evt, _, armed⟩ | ⟨awake, _⟩
    · exact ⟨evt, armed.pending, armed.arg⟩
    · exact absurd asleep.2 awake
  · have phase := inv.phases thr
    unfold Phase at phase
    rw [idle] at phase
    exact phase.2.1

end

theorem drop_woken (s : System Cpu) (it : EventId) : (s.drop it).woken = s.woken := by
  unfold System.drop
  split
  · rfl
  · split <;> rfl

theorem dispatch_outcome (now epoch : Nat) (inv : Inv base s) (pending : Pending s.wheel it) :
    Outcome base s (dispatch now epoch s it) ∧ (Inv base (dispatch now epoch s it) →
      ∀ x, Pending s.wheel x → x ≠ it → Pending (dispatch now epoch s it).wheel x) := by
  unfold dispatch
  rw [inv.live, if_neg Bool.false_ne_true]
  split
  · have log := (drop_woken _ it).trans (threadWakeupHelper_woken epoch (s.arg it) s)
    have extended := (threadWakeupHelper_extends epoch (s.arg it) s).trans (drop_extends _ it)
    by_cases gone : Gone s (s.arg it)
    · obtain ⟨kept, left⟩ := inv.fire epoch pending gone
      refine ⟨⟨extended, _, log, .inl ⟨kept, fun w member => ?_⟩⟩, fun _ x was other => ?_⟩
      · obtain rfl := mem_singleton.mp member
        exact gone
      · exact (left x).mpr ⟨was, other⟩
    · have bad := (inv.misfire epoch pending gone).extends (drop_extends _ it)
      refine ⟨⟨extended, _, log, .inr ⟨bad, _, mem_cons_self, gone⟩⟩, fun kept => ?_⟩
      exact (bad.refutes kept.alarmed kept.safe).elim
  · exact ⟨Outcome.refl inv, fun _ x was _ => was⟩

theorem foldl_dispatch_outcome (now epoch : Nat) (items : List EventId) (inv : Inv base s)
    (distinct : items.Nodup) (pending : ∀ x ∈ items, Pending s.wheel x) :
    Outcome base s (items.foldl (dispatch now epoch) s) := by
  -- the events after the first are pending still, unless the wakeup has gone wrong
  induction items generalizing s with
  | nil => exact Outcome.refl inv
  | cons it items ih =>
    obtain ⟨absent, distinct⟩ := nodup_cons.mp distinct
    obtain ⟨first, left⟩ := dispatch_outcome now epoch inv (pending it mem_cons_self)
    refine first.trans (fun kept => ?_) (foldl_dispatch_extends now epoch items _)
    refine ih kept distinct (fun x member => ?_)
    exact left kept x (pending x (mem_cons_of_mem it member)) (fun same => absent (same ▸ member))

theorem rotate_outcome (inv : Inv base s) : Outcome base s s.rotate :=
  ⟨rotate_extends s, [], (append_nil _).symm, .inl ⟨inv.rotate, fun w member => by cases member⟩⟩

theorem processLoop_outcome (now epoch rounds : Nat) (inv : Inv base s) :
    Outcome base s (processLoop now epoch rounds s) := by
  induction rounds generalizing s with
  | zero => exact Outcome.refl inv
  | succ rounds ih =>
    have slot := foldl_dispatch_outcome now epoch (s.wheel.timerSlot s.wheel.timerHead) inv
      (inv.distinct _) (fun x member => ⟨_, member⟩)
    have round := slot.trans rotate_outcome (rotate_extends _)
    exact round.trans ih (processLoop_extends now epoch rounds _)

end

section

theorem goto_pc (s : System Cpu) (thr : ThreadId) (pc : Pc) : (s.goto thr pc).pc thr = pc :=
  update_self ..

structure Acts (cur : ThreadId) (s t : System Cpu) : Prop where
  same : t.wheel = s.wheel ∧ t.arg = s.arg ∧ t.woken = s.woken ∧ t.halted = s.halted
  others : ∀ thr, thr ≠ cur → t.pc thr = s.pc thr ∧
    (t.kernel.state thr = .waiting ↔ s.kernel.state thr = .waiting) ∧
    t.refCount thr = s.refCount thr ∧ t.timerEvt thr = s.timerEvt thr
  own : ∀ evt, s.pc cur = .created evt ∨ s.timerEvt cur = some evt →
    t.pc cur = .created evt ∨ t.timerEvt cur = some evt

theorem Acts.armed {evt : EventId} (acts : Acts cur s t)
    (armed : Armed s thr evt) : Armed t thr evt := by
  obtain ⟨wheel, arg, _⟩ := acts.same
  refine ⟨?_, ?_, ?_⟩
  · rw [wheel]
    exact armed.pending
  · rw [arg]
    exact armed.arg
  · rw [wheel]
    exact armed.references

section

variable (inv : Inv base s)
include inv

theorem Inv.act (acts : Acts cur s t) (placed : Placed t.kernel) (phase : Phase base t cur)
    (awake : ∀ cpu, t.pc (t.current cpu) = .parked → t.kernel.state (t.current cpu) ≠ .waiting)
    (active : ∀ cpu, t.kernel.state (t.current cpu) ≠ .null) : Inv base t := by
  obtain ⟨wheel, arg, woken, halted⟩ := acts.same
  refine ⟨placed, halted.trans inv.live, ?_, ?_, ?_, ?_, awake, active, ?_⟩
  · intro thr
    by_cases same : thr = cur
    · rw [same]
      exact phase
    · obtain ⟨pc, state, references, event⟩ := acts.others thr same
      exact (inv.phases thr).congr pc state references event (fun evt => acts.armed)
  · rw [wheel, arg]
    intro evt pending
    have owner := inv.owned evt pending
    by_cases same : s.arg evt = cur
    · rw [same] at owner ⊢
      exact acts.own evt owner
    · obtain ⟨pc, _, _, event⟩ := acts.others _ same
      rwa [pc, event]
  · rw [wheel]
    exact inv.known
  · rw [wheel]
    exact inv.distinct
  · rw [woken]
    exact inv.woken

theorem Inv.awake_goto {pc : Pc} (here : pc ≠ .parked) (cpu : Cpu)
    (parked : update s.pc cur pc (s.current cpu) = .parked) :
    s.kernel.state (s.current cpu) ≠ .waiting := by
  by_cases same : s.current cpu = cur
  · rw [same, update_self] at parked
    exact absurd parked here
  · rw [update_of_ne same] at parked
    exact inv.awake cpu parked

theorem Inv.store {evt : EventId} (created : s.pc (s.current cpu) = .created evt) :
    Inv base ({ s with timerEvt := update s.timerEvt (s.current cpu) (some evt) }.goto
      (s.current cpu) .stored) := by
  have phase := inv.phases (s.current cpu)
  unfold Phase at phase
  rw [created] at phase
  obtain ⟨running, count, none, armed⟩ := phase
  have acts : Acts (s.current cpu) s
      ({ s with timerEvt := update s.timerEvt (s.current cpu) (some evt) }.goto
        (s.current cpu) .stored) := by
    refine ⟨⟨rfl, rfl, rfl, rfl⟩, fun thr other => ?_, fun evt' owner => .inr ?_⟩
    · exact ⟨update_of_ne other .., Iff.rfl, rfl, update_of_ne other ..⟩
    · rcases owner with same | held
      · rw [created] at same
        cases same
        exact update_self ..
      · rw [none] at held
        cases held
  refine inv.act acts inv.placed ?_ (inv.awake_goto (by decide)) inv.active
  unfold Phase
  rw [goto_pc]
  exact ⟨running, count, evt, update_self .., acts.armed armed⟩

theorem Inv.resume (parked : s.pc (s.current cpu) = .parked) :
    Inv base ((s.setRefCount (s.current cpu) (s.refCount (s.current cpu) - 1)).goto
      (s.current cpu) .idle) := by
  have awake := inv.awake cpu parked
  rcases (phase_sleeper (.inr parked)).mp (inv.phases (s.current cpu)) with
    ⟨waits, _⟩ | ⟨_, count, none⟩
  · exact absurd waits awake
  have acts : Acts (s.current cpu) s
      ((s.setRefCount (s.current cpu) (s.refCount (s.current cpu) - 1)).goto (s.current cpu) .idle) := by
    refine ⟨⟨rfl, rfl, rfl, rfl⟩, fun thr other => ?_, fun evt owner => .inr ?_⟩
    · exact ⟨update_of_ne other .., Iff.rfl, update_of_ne other .., rfl⟩
    · rcases owner with created | held
      · rw [parked] at created
        cases created
      · exact held
  refine inv.act acts inv.placed ?_ (inv.awake_goto (by decide)) inv.active
  unfold Phase
  rw [goto_pc]
  refine ⟨awake, ?_, none⟩
  show update s.refCount _ _ _ = _
  rw [update_self, count]
  rfl

theorem Inv.setWaiting (stored : s.pc (s.current cpu) = .stored)
    (ran : sched_SetWaiting epoch (s.current cpu) s.kernel = some kernel) :
    Inv base ((s.setKernel kernel).goto (s.current cpu) .leaving) := by
  obtain ⟨placed, running, states, current⟩ := inv.placed.setWaiting ran
  have phase := inv.phases (s.current cpu)
  unfold Phase at phase
  rw [stored] at phase
  obtain ⟨_, count, evt, event, armed⟩ := phase
  have acts : Acts (s.current cpu) s ((s.setKernel kernel).goto (s.current cpu) .leaving) := by
    refine ⟨⟨rfl, rfl, rfl, rfl⟩, fun thr other => ?_, fun evt owner => .inr ?_⟩
    · refine ⟨update_of_ne other .., ?_, rfl, rfl⟩
      show kernel.state thr = _ ↔ _
      rw [states, update_of_ne other]
    · rcases owner with created | held
      · rw [stored] at created
        cases created
      · exact held
  refine inv.act acts placed ?_ ?_ ?_
  · unfold Phase
    rw [goto_pc]
    refine .inl ⟨?_, count, evt, event, acts.armed armed⟩
    show kernel.state _ = _
    rw [states, update_self]
  · intro c parked
    have same : kernel.curProc c = s.current c := congrFun current c
    replace parked : update s.pc (s.current cpu) .leaving (kernel.curProc c) = .parked := parked
    show kernel.state (kernel.curProc c) ≠ _
    rw [same] at parked ⊢
    have other : s.current c ≠ s.current cpu := by
      intro same
      rw [same, update_self] at parked
      cases parked
    rw [states, update_of_ne other]
    exact inv.awake_goto (by decide) c parked
  · intro c
    show kernel.state (kernel.curProc c) ≠ _
    rw [current, states]
    by_cases same : s.kernel.curProc c = s.current cpu
    · rw [same, update_self]
      decide
    · rw [update_of_ne same]
      exact inv.active c

end

section

variable {time : Nat}

theorem ktimer_Create_pending (wheel : KTimer.State) (x : EventId) :
    Pending (ktimer_Create time true wheel) x ↔ Pending wheel x ∨ x = wheel.allocated := by
  unfold Pending ktimer_Create
  simp only [mem_insert_slot]
  constructor
  · rintro ⟨i, old | ⟨_, new⟩⟩
    · exact .inl ⟨i, old⟩
    · exact .inr new
  · rintro (⟨i, old⟩ | new)
    · exact ⟨i, .inl old⟩
    · exact ⟨_, .inr ⟨rfl, new⟩⟩

theorem Inv.sleep (inv : Inv base s) (idle : s.pc (s.current cpu) = .idle) :
    Inv base (({ s with
      wheel := ktimer_Create time true s.wheel
      arg := update s.arg s.wheel.allocated (s.current cpu) }.setRefCount (s.current cpu)
        (s.refCount (s.current cpu) + 2)).goto (s.current cpu) (.created s.wheel.allocated)) := by
  have phase := inv.phases (s.current cpu)
  unfold Phase at phase
  rw [idle] at phase
  obtain ⟨running, count, none⟩ := phase
  have older : ∀ evt, Pending s.wheel evt → evt ≠ s.wheel.allocated :=
    fun evt was => ne_of_lt (inv.known evt was)
  refine ⟨inv.placed, inv.live, ?_, ?_, ?_, ?_, inv.awake_goto (fun parked => by cases parked),
    inv.active, inv.woken⟩
  · intro thr
    by_cases same : thr = s.current cpu
    · subst same
      unfold Phase
      rw [goto_pc]
      refine ⟨running, ?_, none, (ktimer_Create_pending _ _).mpr (.inr rfl),
        update_self .., ?_⟩
      · show update s.refCount _ _ _ = _
        rw [update_self, count]
      · show (update s.wheel.event _ _ _).refCount = _
        rw [update_self]
    · refine (inv.phases thr).congr (update_of_ne same ..) Iff.rfl
        (update_of_ne same ..) rfl (fun evt armed => ?_)
      have old := older evt armed.pending
      refine ⟨(ktimer_Create_pending _ _).mpr (.inl armed.pending), ?_, ?_⟩
      · exact (update_of_ne old ..).trans armed.arg
      · show (update s.wheel.event _ _ _).refCount = _
        rw [update_of_ne old]
        exact armed.references
  · intro evt pending
    show update s.pc _ _ (update s.arg _ _ evt) = _ ∨
      s.timerEvt (update s.arg _ _ evt) = _
    rcases (ktimer_Create_pending _ _).mp pending with was | rfl
    · rw [update_of_ne (older evt was)]
      have owner := inv.owned evt was
      have other : s.arg evt ≠ s.current cpu := by
        intro same
        rw [same, idle, none] at owner
        rcases owner with created | held
        · cases created
        · cases held
      rwa [update_of_ne other]
    · rw [update_self, update_self]
      exact .inl rfl
  · intro evt pending
    show evt < s.wheel.allocated + 1
    rcases (ktimer_Create_pending _ _).mp pending with was | rfl
    · exact Nat.lt_succ_of_lt (inv.known evt was)
    · exact Nat.lt_succ_self _
  · intro i
    show (update s.wheel.timerSlot _ _ i).Nodup
    by_cases here : i = add64 (add64 s.wheel.timerHead time) (TIMER_WHEEL_LENGTH - 1) % TIMER_WHEEL_LENGTH
    · subst here
      rw [update_self]
      exact nodup_cons.mpr ⟨fun member => older _ ⟨_, member⟩ rfl, inv.distinct _⟩
    · rw [update_of_ne here]
      exact inv.distinct i

end

structure Switched (cpu : Cpu) (kernel next : Kernel Cpu) : Prop where
  placed : Placed next
  waiting : ∀ thr, next.state thr = .waiting ↔ kernel.state thr = .waiting
  current : ∀ c, next.state (next.curProc c) ≠ .waiting ∧ next.state (next.curProc c) ≠ .null ∨
    c ≠ cpu ∧ next.curProc c = kernel.curProc c
  null : ∀ thr, next.state thr = .null ↔ kernel.state thr = .null

theorem sched_Scheduler_switched [DecidableEq Cpu] {kernel next : Kernel Cpu}
    (placed : Placed kernel) (ran : sched_Scheduler cpu kernel = some next) :
    Switched cpu kernel next := by
  obtain ⟨kept, states, moved⟩ := placed.scheduler ran
  have change : ∀ thr state, state = .waiting ∨ state = .null →
      (next.state thr = state ↔ kernel.state thr = state) := by
    rintro thr state (rfl | rfl) <;>
    · rcases states thr with same | ⟨old, new⟩ | ⟨old, new⟩
      · rw [same]
      · rw [old, new]
        decide
      · rw [old, new]
        decide
  have waiting := fun thr => change thr .waiting (.inl rfl)
  have null := fun thr => change thr .null (.inr rfl)
  refine ⟨kept, waiting, fun c => ?_, null⟩
  by_cases here : c = cpu
  · subst here
    refine .inl ?_
    rw [Ne, Ne, waiting, null]
    rcases moved with ⟨rfl, runs⟩ | ⟨new, runnable, current⟩
    · rw [runs]
      decide
    · rw [current, update_self, runnable]
      decide
  · refine .inr ⟨here, ?_⟩
    rcases moved with ⟨rfl, _⟩ | ⟨new, _, current⟩
    · rfl
    · rw [current, update_of_ne here]

section

variable (inv : Inv base s)
include inv

theorem Inv.active_switched
    (switched : Switched cpu s.kernel kernel) (c : Cpu) : kernel.state (kernel.curProc c) ≠ .null := by
  rcases switched.current c with ⟨_, active⟩ | ⟨_, same⟩
  · exact active
  · rw [same, Ne, switched.null]
    exact inv.active c

theorem Inv.tick (switched : Switched cpu s.kernel kernel) : Inv base (s.setKernel kernel) := by
  have acts : Acts (s.current cpu) s (s.setKernel kernel) :=
    ⟨⟨rfl, rfl, rfl, rfl⟩, fun thr _ => ⟨rfl, switched.waiting thr, rfl, rfl⟩, fun _ owner => owner⟩
  refine inv.act acts switched.placed ?_ ?_ (inv.active_switched switched)
  · exact (inv.phases _).congr rfl (switched.waiting _) rfl rfl (fun evt => acts.armed)
  · intro c parked
    rcases switched.current c with ⟨awake, _⟩ | ⟨_, same⟩
    · exact awake
    · replace parked : s.pc (kernel.curProc c) = .parked := parked
      show kernel.state (kernel.curProc c) ≠ _
      rw [same] at parked ⊢
      rw [Ne, switched.waiting]
      exact inv.awake c parked

theorem Inv.leave
    (leaving : s.pc (s.current cpu) = .leaving) (switched : Switched cpu s.kernel kernel) :
    Inv base ((s.setKernel kernel).goto (s.current cpu) .parked) := by
  have acts : Acts (s.current cpu) s ((s.setKernel kernel).goto (s.current cpu) .parked) := by
    refine ⟨⟨rfl, rfl, rfl, rfl⟩, fun thr other => ?_, fun evt owner => .inr ?_⟩
    · exact ⟨update_of_ne other .., switched.waiting thr, rfl, rfl⟩
    · rcases owner with created | held
      · rw [leaving] at created
        cases created
      · exact held
  refine inv.act acts switched.placed ?_ ?_ (inv.active_switched switched)
  · refine (phase_sleeper (.inr (goto_pc ..))).mpr ?_
    rcases (phase_sleeper (.inl leaving)).mp (inv.phases _) with ⟨waits, count, evt, event, armed⟩ | ⟨awake, rest⟩
    · exact .inl ⟨(switched.waiting _).mpr waits, count, evt, event, acts.armed armed⟩
    · exact .inr ⟨mt (switched.waiting _).mp awake, rest⟩
  · intro c parked
    rcases switched.current c with ⟨awake, _⟩ | ⟨other, same⟩
    · exact awake
    · -- another CPU keeps its thread, which is not the one that leaves
      replace parked : update s.pc (s.current cpu) .parked (kernel.curProc c) = .parked := parked
      show kernel.state (kernel.curProc c) ≠ _
      have apart : s.kernel.curProc c ≠ s.current cpu := fun same => other (inv.placed.single c cpu same)
      rw [same] at parked ⊢
      rw [update_of_ne apart] at parked
      rw [Ne, switched.waiting]
      exact inv.awake c parked

theorem Inv.spawn
    (new : s.kernel.state thr = .null) (ran : sched_SetRunnable epoch thr s.kernel = some kernel) :
    Inv base (s.setKernel kernel) := by
  have fresh : s.kernel.state thr ≠ .runnable := by
    rw [new]
    decide
  have away : ∀ c, s.kernel.curProc c ≠ thr := fun c same => inv.active c (by rwa [System.current, same])
  obtain ⟨_, result, states, current, _, _⟩ := sched_SetRunnable_sets inv.placed.agreement epoch fresh
  obtain rfl := some.inj (ran.symm.trans result)
  have waiting : ∀ x, kernel.state x = .waiting ↔ s.kernel.state x = .waiting := by
    intro x
    rw [states]
    by_cases same : x = thr
    · rw [same, update_self, new]
      decide
    · rw [update_of_ne same]
  have acts : Acts thr s (s.setKernel kernel) :=
    ⟨⟨rfl, rfl, rfl, rfl⟩, fun x _ => ⟨rfl, waiting x, rfl, rfl⟩, fun _ owner => owner⟩
  refine inv.act acts (inv.placed.setRunnable fresh away ran) ?_ ?_ ?_
  · exact (inv.phases _).congr rfl (waiting _) rfl rfl (fun evt => acts.armed)
  · intro c parked
    replace parked : s.pc (kernel.curProc c) = .parked := parked
    show kernel.state (kernel.curProc c) ≠ _
    rw [current] at parked ⊢
    rw [Ne, waiting]
    exact inv.awake c parked
  · intro c
    show kernel.state (kernel.curProc c) ≠ _
    rw [current, states, update_of_ne (away c)]
    exact inv.active c

end

theorem Started.inv (started : Started s) : Inv s.refCount s := by
  have none : ∀ evt, ¬ Pending s.wheel evt := by
    rintro evt ⟨i, member⟩
    rw [started.wheel i] at member
    cases member
  have unqueued : ∀ thr, s.kernel.state thr ≠ .waiting ∧ s.kernel.state thr ≠ .runnable := by
    intro thr
    rcases started.booted.states thr with state | state <;> rw [state] <;> decide
  refine ⟨⟨started.booted.agreement, started.single, fun c => (unqueued _).2⟩, started.woken.2, ?_,
    fun evt pending => absurd pending (none evt), fun evt pending => absurd pending (none evt), ?_,
    fun cpu _ => (unqueued _).1, ?_, ?_⟩
  · intro thr
    unfold Phase
    rw [(started.threads thr).2]
    exact ⟨(unqueued thr).1, rfl, (started.threads thr).1⟩
  · intro i
    rw [started.wheel i]
    exact nodup_nil
  · intro cpu
    rw [started.running cpu]
    decide
  · rw [started.woken.1]
    exact fun w member => by cases member

section

variable [DecidableEq Cpu]

theorem Inv.step (inv : Inv base s) {label : Label Cpu} (moved : apply s label = some t) :
    Inv base t ∧ t.woken = s.woken ∨ Outcome base s t := by
  have live : ¬ s.halted = true := by
    rw [inv.live]
    exact Bool.false_ne_true
  unfold apply at moved
  rw [if_neg live] at moved
  cases label with
  | tick cpu =>
    obtain ⟨kernel, ran, rfl⟩ := map_eq_some_iff.mp moved
    exact .inl ⟨inv.tick (sched_Scheduler_switched inv.placed ran), rfl⟩
  | spawn epoch thr =>
    dsimp only at moved
    split at moved
    · rename_i new
      obtain ⟨kernel, ran, rfl⟩ := map_eq_some_iff.mp moved
      exact .inl ⟨inv.spawn new ran, rfl⟩
    · cases moved
  | sleep cpu time =>
    dsimp only at moved
    split at moved
    · rename_i idle
      cases moved
      exact .inl ⟨inv.sleep idle.1, rfl⟩
    · cases moved
  | store cpu =>
    dsimp only at moved
    split at moved
    · rename_i evt created
      cases moved
      exact .inl ⟨inv.store created, rfl⟩
    · cases moved
  | setWaiting epoch cpu =>
    dsimp only at moved
    split at moved
    · rename_i stored
      obtain ⟨kernel, ran, rfl⟩ := map_eq_some_iff.mp moved
      exact .inl ⟨inv.setWaiting stored ran, rfl⟩
    · cases moved
  | leave cpu =>
    dsimp only at moved
    split at moved
    · rename_i leaving
      obtain ⟨kernel, ran, rfl⟩ := map_eq_some_iff.mp moved
      exact .inl ⟨inv.leave leaving (sched_Scheduler_switched inv.placed ran), rfl⟩
    · cases moved
  | resume cpu =>
    dsimp only at moved
    split at moved
    · rename_i parked
      cases moved
      exact .inl ⟨inv.resume parked.1, rfl⟩
    · cases moved
  | process now epoch =>
    cases moved
    exact .inr (processLoop_outcome now epoch _ inv)

theorem Inv.step_iff (inv : Inv base s) {label : Label Cpu} (moved : apply s label = some t) :
    WakesGone s t ∧ Inv base t ∨ ¬ WakesGone s t ∧ Bad t := by
  unfold WakesGone
  rcases inv.step moved with ⟨kept, log⟩ | outcome
  · rw [log, drop_length]
    exact .inl ⟨fun w member => by (cases member), kept⟩
  · obtain ⟨new, log, result⟩ := outcome.result
    rw [log, drop_left]
    rcases result with ⟨kept, gone⟩ | ⟨bad, w, member, stays⟩
    · exact .inl ⟨gone, kept⟩
    · exact .inr ⟨fun gone => stays (gone w member), bad⟩

/-- Every sleeper has its alarm, every wakeup finds a sleeper and its event, and the references are
given back, with no thread on a CPU and on `runnableQueue` at once, exactly along the runs in which no
event fires before its thread has called `Sched_SetWaiting` and left its CPU. -/
theorem syscall_ThreadSleep_alarmed_iff (started : Started s) (labels : List (Label Cpu)) :
    Along apply (fun _ _ t => Alarmed s.refCount t ∧ t.kernel.Safe) s labels ↔
      Along apply (fun s _ t => WakesGone s t) s labels := by
  refine along_iff (Inv s.refCount) ?_ ?_ started.inv labels
  · intro s label t inv moved gone
    rcases inv.step_iff moved with ⟨_, kept⟩ | ⟨stays, _⟩
    · exact ⟨⟨kept.alarmed, kept.safe⟩, kept⟩
    · exact absurd gone stays
  · intro s label t inv moved stays good
    rcases inv.step_iff moved with ⟨gone, _⟩ | ⟨_, bad⟩
    · exact stays gone
    · exact bad.refutes good.1 good.2

end

end

def twoAwake : System (Fin 2) where
  kernel := twoCpus
  wheel := ktimer_Init 100
  arg _ := 0
  timerEvt _ := none
  refCount _ := 1
  pc _ := .idle
  woken := []
  halted := false

theorem twoAwake_started : Started twoAwake := by
  refine ⟨twoCpus_booted, fun c d same => Fin.ext same, fun cpu => ?_, fun _ => rfl,
    fun _ => ⟨rfl, rfl⟩, rfl, rfl⟩
  exact if_pos cpu.isLt

instance (s t : System (Fin 2)) : Decidable (WakesGone s t) :=
  inferInstanceAs (Decidable (∀ w ∈ t.woken.drop s.woken.length,
    (s.pc w.thr = .leaving ∨ s.pc w.thr = .parked) ∧ ∀ cpu, s.current cpu ≠ w.thr))

/-- A sleep of a second, with another thread for the CPU. -/
def sleepASecond : List (Label (Fin 2)) :=
  let cpu : Fin 2 := ⟨0, Nat.two_pos⟩
  [.spawn 0 2, .sleep cpu 1, .store cpu, .setWaiting 1 cpu, .leave cpu, .process 101 5, .tick cpu,
    .resume cpu]

theorem syscall_ThreadSleep_alarmed_second :
    (sleepASecond.foldlM apply twoAwake).isSome ∧
      Along apply (fun _ _ t => Alarmed twoAwake.refCount t ∧ t.kernel.Safe) twoAwake sleepASecond :=
  ⟨by decide +kernel,
    (syscall_ThreadSleep_alarmed_iff twoAwake_started sleepASecond).mpr (by decide +kernel)⟩

/-- If the second is over before the store to `timerEvt`, the wakeup finds a running thread and no
event. If it is over between the store and `Sched_SetWaiting`, the thread is on a CPU and on
`runnableQueue`, and goes to sleep, once it is scheduled, with no event on the wheel. -/
theorem syscall_ThreadSleep_unalarmed :
    (∃ t, [.sleep 0 1, .process 101 5].foldlM apply twoAwake = some t ∧ t.halted = true ∧
      ∃ w ∈ t.woken, w.thr = 0 ∧ w.state = .running ∧ w.evt = none) ∧
    ∃ t, [.spawn 0 2, .sleep 0 1, .store 0, .process 101 5, .tick 0, .tick 1, .setWaiting 6 1].foldlM
        apply twoAwake = some t ∧ Asleep t 0 ∧ ∀ i < TIMER_WHEEL_LENGTH, t.wheel.timerSlot i = [] := by
  refine ⟨⟨_, rfl, rfl, _, mem_cons_self, rfl, rfl, rfl⟩, _, rfl, ⟨.inl rfl, rfl⟩, ?_⟩
  decide +kernel

end BoringOs.Alarm
