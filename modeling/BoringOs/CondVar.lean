import BoringOs.Errno
import BoringOs.Lib.Runs
import Mathlib

/-! The condition variables of `lib/libc/posix/pthread.c`, used by any number of threads with one
mutex. A waiter unlocks the mutex, takes the ticket `enter++` and waits while its ticket is not
below `exit`. A timed wait may end first, and then its ticket stays unused. -/

namespace BoringOs.CondVar

open Runs Option Function

def ETIMEDOUT : Int := 0x1BAD0010

inductive Phase where
  | running
  /-- Behind `pthread_mutex_unlock` and before the section that takes the ticket. -/
  | unlocked (timed : Bool)
  /-- Before the test of `level >= cnd->exit`. -/
  | testing (timed : Bool) (level : Nat)
  /-- In a timed wait, behind `OSThreadSleep` and before the test of the time. -/
  | slept (level : Nat)
  /-- Before `pthread_mutex_lock` at the end of the wait. -/
  | relocking (rstatus : Int)
  deriving DecidableEq

/-- The ticket a thread waits with. -/
def Phase.ticket : Phase → Option Nat
  | .testing _ level | .slept level => some level
  | .running | .unlocked _ | .relocking _ => none

variable {Thread : Type} [DecidableEq Thread]

def Phase.isUnlocked : Phase → Bool
  | .unlocked _ => true
  | _ => false

/-- The mutex, the condition variable and the threads. The code has neither `abandoned`, the tickets
of waiters that timed out before their turn, nor `owed`: for each signal that called a ticket to come,
the threads that were behind their unlock then, until one of them takes a ticket that was called. -/
structure State (Thread : Type) where
  locked : Bool
  enter : Nat
  exit : Nat
  phase : Thread → Phase
  abandoned : List Nat
  owed : List (Thread → Bool)

def State.goto (s : State Thread) (cur : Thread) (phase : Phase) : State Thread :=
  { s with phase := Function.update s.phase cur phase }

def initial : State Thread :=
  { locked := false, enter := 0, exit := 0, phase := fun _ => .running, abandoned := [], owed := [] }

inductive Label (Thread : Type) where
  | lock (cur : Thread)
  | unlock (cur : Thread)
  /-- `pthread_cond_wait` or `pthread_cond_timedwait` up to the unlock of the mutex. -/
  | wait (cur : Thread) (timed : Bool)
  /-- The section that takes the ticket. -/
  | ticket (cur : Thread)
  | test (cur : Thread)
  /-- The test of `endtime < OSTime()`. -/
  | time (cur : Thread) (expired : Bool)
  | relock (cur : Thread)
  | signal (cur : Thread)
  | broadcast (cur : Thread)

/-- A timed wait ends with `ETIMEDOUT`. -/
def State.timeOut (s : State Thread) (cur : Thread) (level : Nat) : State Thread :=
  { s with abandoned := if s.exit ≤ level then level :: s.abandoned else s.abandoned }.goto cur
    (.relocking ETIMEDOUT)

def apply (s : State Thread) : Label Thread → Option (State Thread)
  | .lock cur =>
    if s.phase cur = .running ∧ s.locked = false then some { s with locked := true } else none
  | .unlock cur => if s.phase cur = .running then some { s with locked := false } else none
  | .wait cur timed =>
    if s.phase cur = .running then
      some ({ s with locked := false }.goto cur (.unlocked timed))
    else none
  | .ticket cur =>
    match s.phase cur with
    | .unlocked timed =>
      let owed := if s.enter < s.exit then s.owed.filter (fun waiting => !waiting cur) else s.owed
      some ({ s with enter := add64 s.enter 1, owed }.goto cur (.testing timed s.enter))
    | _ => none
  | .test cur =>
    match s.phase cur with
    | .testing timed level =>
      if level < s.exit then some (s.goto cur (.relocking 0))
      else if timed then some (s.goto cur (.slept level))
      else some s
    | _ => none
  | .time cur expired =>
    match s.phase cur with
    | .slept level =>
      if expired then some (s.timeOut cur level) else some (s.goto cur (.testing true level))
    | _ => none
  | .relock cur =>
    match s.phase cur with
    | .relocking _ =>
      if s.locked = false then some ({ s with locked := true }.goto cur .running) else none
    | _ => none
  | .signal cur =>
    if s.phase cur = .running then
      let waiting := fun thread => (s.phase thread).isUnlocked
      some { s with exit := add64 s.exit 1, owed := if s.enter ≤ s.exit then waiting :: s.owed else s.owed }
    else none
  | .broadcast cur => if s.phase cur = .running then some { s with exit := s.enter } else none

/-- The thread has released the mutex inside a wait and has neither been released nor timed
out. -/
def State.Waits (s : State Thread) (thread : Thread) : Prop :=
  match s.phase thread with
  | .unlocked _ => True
  | .testing _ level | .slept level => s.exit ≤ level
  | .running | .relocking _ => False

/-- The wait condition of the thread is false; of a thread without a ticket, that of the ticket it
takes next. -/
def State.MayReturn (s : State Thread) (thread : Thread) : Prop :=
  match s.phase thread with
  | .unlocked _ => s.enter < s.exit
  | .testing _ level | .slept level => level < s.exit
  | .running | .relocking _ => False

instance (s : State Thread) (thread : Thread) : Decidable (s.Waits thread) := by
  unfold State.Waits
  split <;> infer_instance

instance (s : State Thread) (thread : Thread) : Decidable (s.MayReturn thread) := by
  unfold State.MayReturn
  split <;> infer_instance

/-- What a call of `pthread_cond_signal` or `pthread_cond_broadcast` is for. -/
def Wakes (s : State Thread) (label : Label Thread) (s' : State Thread) : Prop :=
  match label with
  | .signal _ => (∃ thread, s.Waits thread) → ∃ thread, s.Waits thread ∧ s'.MayReturn thread
  | .broadcast _ => ∀ thread, s.Waits thread → s'.MayReturn thread
  | _ => True

/-- As long as none of the threads that a signal was for has got a called ticket, one is left. -/
def Delivered (s : State Thread) : Prop :=
  ∀ waiting ∈ s.owed, (∃ thread, waiting thread = true) → s.enter < s.exit

/-- No wakeup is lost in the step, neither at the call nor to a thread that began to wait later, and no
waiter whose condition is false has to wait again. -/
def Good (s : State Thread) (label : Label Thread) (s' : State Thread) : Prop :=
  Wakes s label s' ∧ Delivered s' ∧
    ∀ thread level, (s.phase thread).ticket = some level → (s'.phase thread).ticket = some level →
      level < s.exit → level < s'.exit

/-- The ticket that a signal calls has not been abandoned; no thread is between its unlock and its
ticket at a broadcast; and the last ticket called goes to a thread that all signals owed were for. -/
def Guarded (s : State Thread) (label : Label Thread) (_ : State Thread) : Prop :=
  match label with
  | .signal _ => (∃ thread, s.Waits thread) → s.exit ∉ s.abandoned
  | .broadcast _ => ∀ thread timed, s.phase thread ≠ .unlocked timed
  | .ticket cur => s.exit = s.enter + 1 →
      ∀ waiting ∈ s.owed, (∃ thread, waiting thread = true) → waiting cur = true
  | _ => True

variable {s s' : State Thread} {left : Nat} {cur thread : Thread} {label : Label Thread}

inductive Moves (s s' : State Thread) : Prop where
  | keep (enter : s'.enter = s.enter) (exit : s'.exit = s.exit)
      (abandoned : s'.abandoned = s.abandoned)
      (tickets : ∀ thread, (s'.phase thread).ticket = (s.phase thread).ticket)
  | issue (cur : Thread) (enter : s'.enter = add64 s.enter 1) (exit : s'.exit = s.exit)
      (abandoned : s'.abandoned = s.abandoned) (fresh : (s.phase cur).ticket = none)
      (ticket : (s'.phase cur).ticket = some s.enter)
      (others : ∀ thread, thread ≠ cur → (s'.phase thread).ticket = (s.phase thread).ticket)
  | leave (cur : Thread) (level : Nat) (enter : s'.enter = s.enter) (exit : s'.exit = s.exit)
      (held : (s.phase cur).ticket = some level) (left : (s'.phase cur).ticket = none)
      (abandoned : s'.abandoned = if s.exit ≤ level then level :: s.abandoned else s.abandoned)
      (others : ∀ thread, thread ≠ cur → (s'.phase thread).ticket = (s.phase thread).ticket)
  | call (enter : s'.enter = s.enter) (exit : s'.exit = add64 s.exit 1 ∨ s'.exit = s.enter)
      (abandoned : s'.abandoned = s.abandoned)
      (tickets : ∀ thread, (s'.phase thread).ticket = (s.phase thread).ticket)

theorem goto_ticket_of_ne (s : State Thread) (phase : Phase) (other : thread ≠ cur) :
    ((s.goto cur phase).phase thread).ticket = (s.phase thread).ticket := by
  show (update s.phase cur phase thread).ticket = (s.phase thread).ticket
  rw [update_of_ne other]

theorem goto_ticket (s : State Thread) (phase : Phase) (cur : Thread) :
    ((s.goto cur phase).phase cur).ticket = phase.ticket := by
  show (update s.phase cur phase cur).ticket = phase.ticket
  rw [update_self]

theorem goto_tickets {phase : Phase} (same : phase.ticket = (s.phase cur).ticket) (thread : Thread) :
    ((s.goto cur phase).phase thread).ticket = (s.phase thread).ticket := by
  by_cases own : thread = cur
  · rw [own, goto_ticket, same]
  · exact goto_ticket_of_ne s phase own

theorem apply_moves (moved : apply s label = some s') : Moves s s' := by
  cases label with
  | lock cur =>
    obtain ⟨_, rfl⟩ := ite_some_none_eq_some.mp moved
    exact .keep rfl rfl rfl (fun _ => rfl)
  | unlock cur =>
    obtain ⟨_, rfl⟩ := ite_some_none_eq_some.mp moved
    exact .keep rfl rfl rfl (fun _ => rfl)
  | wait cur timed =>
    obtain ⟨running, rfl⟩ := ite_some_none_eq_some.mp moved
    refine .keep rfl rfl rfl (goto_tickets (s := { s with locked := false }) ?_)
    rw [running]
    rfl
  | ticket cur =>
    cases phase : s.phase cur with
    | unlocked timed =>
      simp only [apply, phase, some.injEq] at moved
      subst moved
      exact .issue cur rfl rfl rfl (by rw [phase]; rfl) (goto_ticket _ _ _) (fun _ => goto_ticket_of_ne _ _)
    | _ => simp [apply, phase] at moved
  | test cur =>
    cases phase : s.phase cur with
    | testing timed level =>
      simp only [apply, phase] at moved
      by_cases released : level < s.exit
      · rw [if_pos released, some.injEq] at moved
        subst moved
        have turn : ¬ s.exit ≤ level := not_le.mpr released
        refine .leave cur level rfl rfl (by rw [phase]; rfl) (goto_ticket _ _ _) ?_
          (fun _ => goto_ticket_of_ne _ _)
        rw [if_neg turn]
        rfl
      · rw [if_neg released] at moved
        cases timed with
        | false =>
          cases moved
          exact .keep rfl rfl rfl (fun _ => rfl)
        | true =>
          cases moved
          exact .keep rfl rfl rfl (goto_tickets (by rw [phase]; rfl))
    | _ => simp [apply, phase] at moved
  | time cur expired =>
    cases phase : s.phase cur with
    | slept level =>
      simp only [apply, phase] at moved
      cases expired with
      | false =>
        cases moved
        exact .keep rfl rfl rfl (goto_tickets (by rw [phase]; rfl))
      | true =>
        cases moved
        exact .leave cur level rfl rfl (by rw [phase]; rfl) (goto_ticket _ _ _) rfl
          (fun _ => goto_ticket_of_ne _ _)
    | _ => simp [apply, phase] at moved
  | relock cur =>
    cases phase : s.phase cur with
    | relocking rstatus =>
      simp only [apply, phase] at moved
      obtain ⟨_, rfl⟩ := ite_some_none_eq_some.mp moved
      refine .keep rfl rfl rfl (goto_tickets (s := { s with locked := true }) ?_)
      show Phase.ticket .running = (s.phase cur).ticket
      rw [phase]
      rfl
    | _ => simp [apply, phase] at moved
  | signal cur =>
    obtain ⟨_, rfl⟩ := ite_some_none_eq_some.mp moved
    exact .call rfl (.inl rfl) rfl (fun _ => rfl)
  | broadcast cur =>
    obtain ⟨_, rfl⟩ := ite_some_none_eq_some.mp moved
    exact .call rfl (.inr rfl) rfl (fun _ => rfl)

/-- Every ticket from `exit` on is held by one waiter or abandoned. The counters do not wrap within
the steps that are left. -/
structure Inv (left : Nat) (s : State Thread) : Prop where
  enter : s.enter + left < word64
  exit : s.exit + left < word64
  issued : ∀ thread level, (s.phase thread).ticket = some level → level < s.enter
  unique : ∀ one other level, (s.phase one).ticket = some level →
    (s.phase other).ticket = some level → one = other
  used : ∀ level ∈ s.abandoned, level < s.enter
  unheld : ∀ level ∈ s.abandoned, ∀ thread, (s.phase thread).ticket ≠ some level
  covered : ∀ level, s.exit ≤ level → level < s.enter →
    level ∈ s.abandoned ∨ ∃ thread, (s.phase thread).ticket = some level

omit [DecidableEq Thread] in
theorem Inv.keep (inv : Inv (left + 1) s)
    (enter : s'.enter = s.enter) (exit : s.exit ≤ s'.exit ∨ s.enter ≤ s'.exit)
    (small : s'.exit + left < word64) (abandoned : s'.abandoned = s.abandoned)
    (tickets : ∀ thread, (s'.phase thread).ticket = (s.phase thread).ticket) : Inv left s' where
  enter := by
    have := inv.enter
    omega
  exit := small
  issued := by
    intro thread level
    rw [tickets, enter]
    exact inv.issued thread level
  unique := by
    intro one other level
    rw [tickets, tickets]
    exact inv.unique one other level
  used := by
    rw [abandoned, enter]
    exact inv.used
  unheld := by
    intro level member thread
    rw [tickets]
    exact inv.unheld level (abandoned ▸ member) thread
  covered := by
    intro level reached issued
    simp only [abandoned, tickets]
    exact inv.covered level (by omega) (enter ▸ issued)

section

variable (inv : Inv (left + 1) s)
include inv

theorem Inv.issue (enter : s'.enter = add64 s.enter 1) (exit : s'.exit = s.exit)
    (abandoned : s'.abandoned = s.abandoned) (fresh : (s.phase cur).ticket = none)
    (ticket : (s'.phase cur).ticket = some s.enter)
    (others : ∀ thread, thread ≠ cur → (s'.phase thread).ticket = (s.phase thread).ticket) :
    Inv left s' := by
  have enterBound := inv.enter
  have exitBound := inv.exit
  have next : s'.enter = s.enter + 1 := by
    rw [enter, add64_of_lt (by omega)]
  -- The new ticket is above all others.
  have held : ∀ thread level, (s'.phase thread).ticket = some level →
      (thread = cur ∧ level = s.enter) ∨
        ((s.phase thread).ticket = some level ∧ level < s.enter) := by
    intro thread level has
    by_cases own : thread = cur
    · rw [own, ticket, some.injEq] at has
      exact .inl ⟨own, has.symm⟩
    · rw [others thread own] at has
      exact .inr ⟨has, inv.issued thread level has⟩
  refine ⟨by omega, by omega, ?_, ?_, ?_, ?_, ?_⟩
  · intro thread level has
    have := held thread level has
    omega
  · intro one other level first second
    rcases held one level first with ⟨own₁, new⟩ | ⟨old₁, below⟩
    · rcases held other level second with ⟨own₂, _⟩ | ⟨_, below⟩
      · rw [own₁, own₂]
      · omega
    · rcases held other level second with ⟨_, new⟩ | ⟨old₂, _⟩
      · omega
      · exact inv.unique one other level old₁ old₂
  · rw [abandoned]
    intro level member
    have := inv.used level member
    omega
  · rw [abandoned]
    intro level member thread has
    have old := inv.used level member
    rcases held thread level has with ⟨_, new⟩ | ⟨has, _⟩
    · omega
    · exact inv.unheld level member thread has
  · intro level reached below
    rw [abandoned]
    by_cases new : level = s.enter
    · exact .inr ⟨cur, new ▸ ticket⟩
    · rcases inv.covered level (by omega) (by omega) with gone | ⟨thread, has⟩
      · exact .inl gone
      · have other : thread ≠ cur := by
          rintro rfl
          rw [fresh] at has
          cases has
        exact .inr ⟨thread, (others thread other).trans has⟩

theorem Inv.leave {level : Nat} (enter : s'.enter = s.enter) (exit : s'.exit = s.exit)
    (held : (s.phase cur).ticket = some level) (gone : (s'.phase cur).ticket = none)
    (abandoned : s'.abandoned = if s.exit ≤ level then level :: s.abandoned else s.abandoned)
    (others : ∀ thread, thread ≠ cur → (s'.phase thread).ticket = (s.phase thread).ticket) :
    Inv left s' := by
  have enterBound := inv.enter
  have exitBound := inv.exit
  have old : ∀ thread other, (s'.phase thread).ticket = some other →
      thread ≠ cur ∧ (s.phase thread).ticket = some other := by
    intro thread other has
    have away : thread ≠ cur := by
      rintro rfl
      rw [gone] at has
      cases has
    exact ⟨away, (others thread away) ▸ has⟩
  have member : ∀ other, other ∈ s'.abandoned → other = level ∨ other ∈ s.abandoned := by
    intro other
    rw [abandoned]
    split
    · exact List.mem_cons.mp
    · exact .inr
  refine ⟨by omega, by omega, ?_, ?_, ?_, ?_, ?_⟩
  · intro thread other has
    rw [enter]
    exact inv.issued thread other (old thread other has).2
  · intro one two other first second
    exact inv.unique one two other (old one other first).2 (old two other second).2
  · intro other has
    rw [enter]
    rcases member other has with rfl | before
    · exact inv.issued cur other held
    · exact inv.used other before
  · intro other has thread holds
    obtain ⟨away, holds⟩ := old thread other holds
    rcases member other has with rfl | before
    · exact away (inv.unique thread cur other holds held)
    · exact inv.unheld other before thread holds
  · intro other reached below
    rw [exit] at reached
    rw [abandoned]
    rcases inv.covered other reached (enter ▸ below) with before | ⟨thread, holds⟩
    · refine .inl ?_
      split
      · exact List.mem_cons_of_mem _ before
      · exact before
    · by_cases own : thread = cur
      · rw [own, held, some.injEq] at holds
        rw [holds, if_pos reached]
        exact .inl List.mem_cons_self
      · exact .inr ⟨thread, (others thread own).trans holds⟩

theorem Inv.step (moved : apply s label = some s') : Inv left s' := by
  have enterBound := inv.enter
  have exitBound := inv.exit
  cases apply_moves moved with
  | keep enter exit abandoned tickets =>
    exact inv.keep enter (.inl (by omega)) (by omega) abandoned tickets
  | issue cur enter exit abandoned fresh ticket others =>
    exact inv.issue enter exit abandoned fresh ticket others
  | leave cur level enter exit held gone abandoned others =>
    exact inv.leave enter exit held gone abandoned others
  | call enter exit abandoned tickets =>
    rcases exit with signal | broadcast
    · rw [add64_of_lt (by omega)] at signal
      exact inv.keep enter (.inl (by omega)) (by omega) abandoned tickets
    · exact inv.keep enter (.inr (by omega)) (by omega) abandoned tickets

theorem Inv.stays (moved : apply s label = some s') (thread : Thread) (level : Nat)
    (held : (s.phase thread).ticket = some level) (released : level < s.exit) : level < s'.exit := by
  have issued := inv.issued thread level held
  have exitBound := inv.exit
  cases apply_moves moved with
  | keep _ exit _ _ => omega
  | issue _ _ exit _ _ _ _ => omega
  | leave _ _ _ exit _ _ _ _ => omega
  | call _ exit _ _ =>
    rw [add64_of_lt (by omega)] at exit
    omega

end

omit [DecidableEq Thread] in
theorem waits_cases (waits : s.Waits thread) :
    (∃ timed, s.phase thread = .unlocked timed) ∨
      ∃ level, (s.phase thread).ticket = some level ∧ s.exit ≤ level := by
  unfold State.Waits at waits
  cases phase : s.phase thread with
  | running =>
    rw [phase] at waits
    exact waits.elim
  | unlocked timed => exact .inl ⟨timed, rfl⟩
  | testing timed level =>
    rw [phase] at waits
    exact .inr ⟨level, rfl, waits⟩
  | slept level =>
    rw [phase] at waits
    exact .inr ⟨level, rfl, waits⟩
  | relocking rstatus =>
    rw [phase] at waits
    exact waits.elim

omit [DecidableEq Thread] in
theorem waits_of_ticket {level : Nat}
    (held : (s.phase thread).ticket = some level) : s.Waits thread ↔ s.exit ≤ level := by
  unfold State.Waits
  cases phase : s.phase thread <;> rw [phase] at held <;> cases held <;> exact Iff.rfl

omit [DecidableEq Thread] in
theorem mayReturn_of_ticket (same : s'.phase = s.phase)
    {level : Nat} (held : (s.phase thread).ticket = some level) :
    s'.MayReturn thread ↔ level < s'.exit := by
  rw [State.MayReturn, same]
  cases phase : s.phase thread <;> rw [phase] at held <;> cases held <;> exact Iff.rfl

omit [DecidableEq Thread] in
theorem waits_of_unlocked {timed : Bool}
    (unlocked : s.phase thread = .unlocked timed) : s.Waits thread := by
  rw [State.Waits, unlocked]
  trivial

omit [DecidableEq Thread] in
theorem mayReturn_of_unlocked (same : s'.phase = s.phase)
    {timed : Bool} (unlocked : s.phase thread = .unlocked timed) :
    s'.MayReturn thread ↔ s'.enter < s'.exit := by
  rw [State.MayReturn, same, unlocked]

theorem Inv.signal (inv : Inv (left + 1) s) (moved : apply s (.signal cur) = some s') :
    Wakes s (.signal cur) s' ↔ Guarded s (.signal cur) s' := by
  have exitBound := inv.exit
  obtain ⟨_, result⟩ := ite_some_none_eq_some.mp moved
  have same : s'.phase = s.phase := by rw [← result]
  have enter : s'.enter = s.enter := by rw [← result]
  have next : s'.exit = s.exit + 1 := by
    rw [← result]
    exact add64_of_lt (by omega)
  rw [Wakes, Guarded]
  constructor
  · intro wakes somebody abandoned
    obtain ⟨thread, waits, returns⟩ := wakes somebody
    have used := inv.used _ abandoned
    rcases waits_cases waits with ⟨timed, unlocked⟩ | ⟨level, held, reached⟩
    · have := (mayReturn_of_unlocked same unlocked).mp returns
      omega
    · have := (mayReturn_of_ticket same held).mp returns
      have called : level = s.exit := by omega
      exact inv.unheld _ abandoned thread (called ▸ held)
  · intro guarded somebody
    have live := guarded somebody
    by_cases pending : s.exit < s.enter
    · rcases inv.covered s.exit le_rfl pending with gone | ⟨thread, held⟩
      · exact absurd gone live
      · exact ⟨thread, (waits_of_ticket held).mpr le_rfl,
          (mayReturn_of_ticket same held).mpr (by omega)⟩
    · obtain ⟨thread, waits⟩ := somebody
      rcases waits_cases waits with ⟨timed, unlocked⟩ | ⟨level, held, reached⟩
      · exact ⟨thread, waits, (mayReturn_of_unlocked same unlocked).mpr (by omega)⟩
      · have := inv.issued thread level held
        omega

theorem Inv.broadcast (inv : Inv (left + 1) s) (moved : apply s (.broadcast cur) = some s') :
    Wakes s (.broadcast cur) s' ↔ Guarded s (.broadcast cur) s' := by
  obtain ⟨_, result⟩ := ite_some_none_eq_some.mp moved
  have same : s'.phase = s.phase := by rw [← result]
  have exit : s'.exit = s'.enter := by rw [← result]
  have enter : s'.enter = s.enter := by rw [← result]
  rw [Wakes, Guarded]
  constructor
  · intro wakes thread timed unlocked
    have := (mayReturn_of_unlocked same unlocked).mp (wakes thread (waits_of_unlocked unlocked))
    omega
  · intro guarded thread waits
    rcases waits_cases waits with ⟨timed, unlocked⟩ | ⟨level, held, _⟩
    · exact absurd unlocked (guarded thread timed)
    · have issued := inv.issued thread level held
      exact (mayReturn_of_ticket same held).mpr (by omega)

/-- The signals that are owed still have a called ticket and a thread to take it. -/
def Owed (s : State Thread) : Prop :=
  ∀ waiting ∈ s.owed, (∃ thread, waiting thread = true) →
    s.enter < s.exit ∧ ∃ thread timed, waiting thread = true ∧ s.phase thread = .unlocked timed

omit [DecidableEq Thread] in
/-- Steps that leave the counters and the threads behind their unlock alone. -/
theorem Owed.keep (owed : Owed s) (same : s'.owed = s.owed) (enter : s'.enter = s.enter)
    (exit : s'.exit = s.exit)
    (unlocked : ∀ thread timed, s.phase thread = .unlocked timed → s'.phase thread = .unlocked timed) :
    Owed s' := by
  intro waiting member somebody
  obtain ⟨left, thread, timed, hers, behind⟩ := owed waiting (same ▸ member) somebody
  exact ⟨by omega, thread, timed, hers, unlocked thread timed behind⟩

theorem goto_unlocked {phase : Phase} (away : ∀ timed, s.phase cur ≠ .unlocked timed) (thread : Thread)
    (timed : Bool) (behind : s.phase thread = .unlocked timed) :
    (s.goto cur phase).phase thread = .unlocked timed := by
  have other : thread ≠ cur := fun own => away timed (own ▸ behind)
  show update s.phase cur phase thread = _
  rw [update_of_ne other, behind]

theorem Owed.ticket (inv : Inv (left + 1) s) (owed : Owed s) (moved : apply s (.ticket cur) = some s') :
    Guarded s (.ticket cur) s' ↔ Owed s' := by
  have enterBound := inv.enter
  simp only [apply] at moved
  split at moved
  · next timed behind =>
    cases moved
    have enter : add64 s.enter 1 = s.enter + 1 := add64_of_lt (by omega)
    by_cases called : s.enter < s.exit
    · rw [if_pos called, Guarded, Owed]
      constructor
      · intro guarded waiting member somebody
        obtain ⟨member, others⟩ := List.mem_filter.mp member
        obtain ⟨_, thread, timed', hers, unlocked⟩ := owed waiting member somebody
        have apart : thread ≠ cur := by
          rintro rfl
          simp [hers] at others
        refine ⟨?_, thread, timed', hers, (update_of_ne apart ..).trans unlocked⟩
        show add64 s.enter 1 < s.exit
        by_contra last
        have taken := guarded (by omega) waiting member somebody
        simp [taken] at others
      · intro after last waiting member somebody
        by_contra other
        have left : add64 s.enter 1 < s.exit :=
          (after waiting (List.mem_filter.mpr ⟨member, by simp [other]⟩) somebody).1
        omega
    · have none : ∀ waiting ∈ s.owed, ¬ ∃ thread, waiting thread = true :=
        fun waiting member somebody => called (owed waiting member somebody).1
      rw [if_neg called]
      exact iff_of_true (fun _ waiting member somebody => absurd somebody (none waiting member))
        (fun waiting member somebody => absurd somebody (none waiting member))
  · cases moved

theorem Owed.signal (inv : Inv (left + 1) s) (owed : Owed s) (moved : apply s (.signal cur) = some s') :
    Owed s' := by
  have exitBound := inv.exit
  obtain ⟨_, rfl⟩ := ite_some_none_eq_some.mp moved
  have exit : add64 s.exit 1 = s.exit + 1 := add64_of_lt (by omega)
  have before : ∀ waiting ∈ s.owed, (∃ thread, waiting thread = true) → s.enter < add64 s.exit 1 ∧
      ∃ thread timed, waiting thread = true ∧ s.phase thread = .unlocked timed := by
    intro waiting member somebody
    obtain ⟨left, more⟩ := owed waiting member somebody
    exact ⟨by omega, more⟩
  intro waiting member
  dsimp only at member
  split at member
  · next ahead =>
    rcases List.mem_cons.mp member with rfl | old
    · rintro ⟨thread, hers⟩
      refine ⟨show s.enter < add64 s.exit 1 by omega, thread, ?_⟩
      dsimp only at hers ⊢
      cases phase : s.phase thread <;> simp [phase, Phase.isUnlocked] at hers ⊢
    · exact before waiting old
  · exact before waiting member

/-- In a step, what is owed stays deliverable exactly if the step is guarded. -/
theorem Owed.step (inv : Inv (left + 1) s) (owed : Owed s) (moved : apply s label = some s')
    (guarded : Guarded s label s') : Owed s' := by
  cases label with
  | ticket cur => exact (owed.ticket inv moved).mp guarded
  | signal cur => exact owed.signal inv moved
  | broadcast cur =>
    obtain ⟨_, rfl⟩ := ite_some_none_eq_some.mp moved
    intro waiting member somebody
    obtain ⟨_, thread, timed, _, behind⟩ := owed waiting member somebody
    exact absurd behind (guarded thread timed)
  | lock cur | unlock cur =>
    obtain ⟨_, rfl⟩ := ite_some_none_eq_some.mp moved
    exact owed.keep rfl rfl rfl (fun _ _ => id)
  | wait cur timed =>
    obtain ⟨running, rfl⟩ := ite_some_none_eq_some.mp moved
    exact owed.keep rfl rfl rfl
      (@goto_unlocked _ _ { s with locked := false } _ _ (fun _ => by simp [running]))
  | test cur | time cur _ | relock cur =>
    cases phase : s.phase cur <;> simp only [apply, phase] at moved
    all_goals
      first
      | cases moved
      | (try split at moved) <;> (try split at moved) <;> cases moved <;>
          first
          | exact owed
          | exact owed.keep rfl rfl rfl (@goto_unlocked _ _ _ _ _ (fun _ => by simp [phase]))

omit [DecidableEq Thread] in
theorem initial_inv (short : left < word64) : Inv left (initial : State Thread) where
  enter := by
    show 0 + left < word64
    omega
  exit := by
    show 0 + left < word64
    omega
  issued := by
    intro thread level held
    cases held
  unique := by
    intro one other level held
    cases held
  used := by
    intro level member
    cases member
  unheld := by
    intro level member
    cases member
  covered := by
    intro level _ below
    cases below

instance [Fintype Thread] (s : State Thread) (label : Label Thread) (s' : State Thread) :
    Decidable (Guarded s label s') := by
  unfold Guarded
  split <;> infer_instance

instance [Fintype Thread] (s : State Thread) (label : Label Thread) (s' : State Thread) :
    Decidable (Wakes s label s') := by
  unfold Wakes
  split <;> infer_instance

instance [Fintype Thread] (s : State Thread) : Decidable (Delivered s) := by
  unfold Delivered
  infer_instance

end BoringOs.CondVar
