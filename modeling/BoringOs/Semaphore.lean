import BoringOs.Sched

/-! The counting semaphore of `sys/kern/semaphore.c`. One pass under `sema->lock` is one step: a
caller that has to wait is set waiting, and a sleeper that is taken off `waiters` is set runnable
and looks at `count` again when it is scheduled. -/

namespace BoringOs.Semaphore

open Runs Sched List

def wrap32 (value : Int) : Int := (value + 2 ^ 31) % 2 ^ 32 - 2 ^ 31

theorem wrap32_of_lt {value : Int} (low : -2 ^ 31 ≤ value) (high : value < 2 ^ 31) :
    wrap32 value = value := by
  unfold wrap32
  omega

structure Sema where
  count : Int
  waiters : List ThreadId

def semaphore_Init (count : Int) : Sema := ⟨count, []⟩

def semaphore_Acquire (cur : ThreadId) (sema : Sema) : Bool × Sema :=
  if sema.count > 0 then (true, { sema with count := sema.count - 1 })
  else (false, { sema with waiters := sema.waiters ++ [cur] })

def semaphore_Release (sema : Sema) : Option ThreadId × Sema :=
  match sema.waiters with
  | [] => (none, ⟨wrap32 (sema.count + 1), []⟩)
  | thr :: rest => (some thr, ⟨wrap32 (sema.count + 1), rest⟩)

theorem semaphore_Release_head (sema : Sema) : (semaphore_Release sema).1 = sema.waiters.head? := by
  unfold semaphore_Release
  cases sema.waiters <;> rfl

def semaphore_TryAcquire (sema : Sema) : Bool × Sema :=
  if sema.count > 0 then (true, { sema with count := sema.count - 1 }) else (false, sema)

/-- A semaphore in use. `woken` are the threads that a release took off `waiters` and that
have not looked at `count` since. -/
structure State where
  sema : Sema
  woken : List ThreadId
  releases : Nat
  acquires : Nat

inductive Op where
  | acquire (cur : ThreadId)
  | tryAcquire
  | release

def apply (s : State) : Op → State
  | .acquire cur =>
    let (acquired, sema) := semaphore_Acquire cur s.sema
    { s with
      sema := sema
      woken := s.woken.erase cur
      acquires := if acquired then s.acquires + 1 else s.acquires }
  | .tryAcquire =>
    let (acquired, sema) := semaphore_TryAcquire s.sema
    { s with sema := sema, acquires := if acquired then s.acquires + 1 else s.acquires }
  | .release =>
    let (thr, sema) := semaphore_Release s.sema
    { s with sema := sema, woken := s.woken ++ thr.toList, releases := s.releases + 1 }

/-- A thread that sleeps on `waiters` does not run. -/
def Step (s : State) (op : Op) (t : State) : Prop :=
  (∀ cur, op = .acquire cur → cur ∉ s.sema.waiters) ∧ t = apply s op

def start (count : Int) : State := ⟨semaphore_Init count, [], 0, 0⟩

/-- Units are neither made nor lost, and a unit that is there while a thread sleeps has a
thread on its way to it. -/
structure Conserved (initial : Int) (s : State) : Prop where
  count : s.sema.count = initial + s.releases - s.acquires
  nonneg : 0 ≤ s.sema.count
  waiters : s.sema.waiters.Nodup
  woken : s.woken.Nodup
  apart : ∀ thr ∈ s.sema.waiters, thr ∉ s.woken
  onTheWay : s.sema.waiters ≠ [] → s.sema.count ≤ s.woken.length

section

variable {initial : Int} {s : State}

theorem erase_length (woken : List ThreadId) (cur : ThreadId) :
    woken.length ≤ (woken.erase cur).length + 1 := by
  rw [length_erase]
  split <;> omega

theorem nodup_snoc {threads : List ThreadId} {thr : ThreadId} (distinct : threads.Nodup)
    (fresh : thr ∉ threads) : (threads ++ [thr]).Nodup := by
  rw [← concat_eq_append]
  exact distinct.concat fresh

section

variable (conserved : Conserved initial s)
include conserved

theorem Conserved.acquire {cur : ThreadId}
    (awake : cur ∉ s.sema.waiters) : Conserved initial (apply s (.acquire cur)) := by
  have left := erase_length s.woken cur
  have apart : ∀ thr ∈ s.sema.waiters, thr ∉ s.woken.erase cur :=
    fun thr member again => conserved.apart thr member (mem_of_mem_erase again)
  by_cases available : s.sema.count > 0
  · simp only [apply, semaphore_Acquire, available, ↓reduceIte]
    constructor
    · have := conserved.count
      push_cast
      omega
    · dsimp only
      omega
    · exact conserved.waiters
    · exact conserved.woken.erase cur
    · exact apart
    · intro sleepers
      have := conserved.onTheWay sleepers
      dsimp only
      omega
  · simp only [apply, semaphore_Acquire, available, ↓reduceIte, Bool.false_eq_true]
    have none : s.sema.count = 0 := by
      have := conserved.nonneg
      omega
    constructor
    · exact conserved.count
    · exact conserved.nonneg
    · exact nodup_snoc conserved.waiters awake
    · exact conserved.woken.erase cur
    · intro thr member
      rcases mem_append.mp member with old | new
      · exact apart thr old
      · rw [mem_singleton.mp new]
        exact conserved.woken.not_mem_erase
    · intro _
      dsimp only
      omega

theorem Conserved.tryAcquire : Conserved initial (apply s .tryAcquire) := by
  by_cases available : s.sema.count > 0
  · simp only [apply, semaphore_TryAcquire, available, ↓reduceIte]
    constructor
    · have := conserved.count
      push_cast
      omega
    · dsimp only
      omega
    · exact conserved.waiters
    · exact conserved.woken
    · exact conserved.apart
    · intro sleepers
      have := conserved.onTheWay sleepers
      dsimp only
      omega
  · simp only [apply, semaphore_TryAcquire, available, ↓reduceIte, Bool.false_eq_true]
    exact ⟨conserved.count, conserved.nonneg, conserved.waiters, conserved.woken, conserved.apart,
      conserved.onTheWay⟩

theorem Conserved.release
    (bound : initial + (s.releases + 1 : Nat) < 2 ^ 31) : Conserved initial (apply s .release) := by
  have counted := conserved.count
  have nonneg := conserved.nonneg
  have unwrapped : wrap32 (s.sema.count + 1) = s.sema.count + 1 := by
    apply wrap32_of_lt
    · omega
    · push_cast at bound
      omega
  cases queue : s.sema.waiters with
  | nil =>
    simp only [apply, semaphore_Release, queue, unwrapped, Option.toList_none, append_nil]
    constructor
    · push_cast
      omega
    · dsimp only
      omega
    · exact nodup_nil
    · exact conserved.woken
    · exact fun thr member => absurd member not_mem_nil
    · exact fun sleepers => absurd rfl sleepers
  | cons thr rest =>
    simp only [apply, semaphore_Release, queue, unwrapped, Option.toList_some]
    have waiters := conserved.waiters
    rw [queue, nodup_cons] at waiters
    have free := conserved.apart
    rw [queue] at free
    have onTheWay := conserved.onTheWay (by simp [queue])
    constructor
    · push_cast
      omega
    · dsimp only
      omega
    · exact waiters.2
    · exact nodup_snoc conserved.woken (free thr mem_cons_self)
    · intro left member again
      rcases mem_append.mp again with old | new
      · exact free left (mem_cons_of_mem _ member) old
      · rw [mem_singleton.mp new] at member
        exact waiters.1 member
    · intro _
      rw [length_append, length_singleton]
      push_cast
      omega

end

theorem releases_mono (s : State) (op : Op) : s.releases ≤ (apply s op).releases := by
  cases op with
  | acquire => exact le_rfl
  | tryAcquire => exact le_rfl
  | release => exact Nat.le_succ _

end

/-- Conservation and no lost wakeup, for every interleaving of the passes. -/
theorem semaphore_conserves {initial : Int} (nonneg : 0 ≤ initial) {ops : List Op} {t : State}
    (ran : Run Step (start initial) ops t) (bound : initial + t.releases < 2 ^ 31) :
    Conserved initial t := by
  refine ran.invariant (fun s => initial + s.releases < 2 ^ 31 → Conserved initial s) ?_ ?_ bound
  · rintro s op t inv ⟨awake, rfl⟩ bound
    have before := inv (by
      have := releases_mono s op
      omega)
    cases op with
    | acquire cur => exact before.acquire (awake cur rfl)
    | tryAcquire => exact before.tryAcquire
    | release => exact before.release bound
  · intro _
    exact ⟨by simp [start, semaphore_Init], nonneg, nodup_nil, nodup_nil,
      fun thr member => absurd member not_mem_nil, fun sleepers => absurd rfl sleepers⟩

theorem semaphore_conserves_barging :
    ∃ t, Run Step (start 0) [.acquire 7, .release, .tryAcquire, .acquire 7] t ∧
      t.sema.waiters = [7] ∧ Conserved 0 t := by
  have ran : Run Step (start 0) [.acquire 7, .release, .tryAcquire, .acquire 7] _ :=
    .cons ⟨fun _ _ => not_mem_nil, rfl⟩ (.cons ⟨fun _ same => (by cases same), rfl⟩
      (.cons ⟨fun _ same => (by cases same), rfl⟩ (.single ⟨fun _ _ => not_mem_nil, rfl⟩)))
  exact ⟨_, ran, rfl, semaphore_conserves (by decide) ran (by decide)⟩

/-- From the largest `int` one release makes the count negative. -/
theorem semaphore_count_overflows :
    ∃ t, Run Step (start (2 ^ 31 - 1)) [.release] t ∧ t.releases < 2 ^ 31 ∧ t.sema.count < 0 :=
  ⟨_, .single ⟨fun _ same => (by cases same), rfl⟩, by decide, by decide⟩

end BoringOs.Semaphore
