import BoringOs.SyscallResult
import BoringOs.Lib.Runs

/-! The thread records of `lib/libc/posix/pthread.c`: `pthread_create`, `pthread_self`,
`pthread_exit`, the return of an entry function and `pthread_join`. System calls and operations on
the table are one step each. A thread is named by its `tid`, and its record by the same number. The
slots of the table only separate records with different `tid`, so the table is one list. -/

namespace BoringOs.Pthread

open Runs SyscallResult Function Option List

inductive Phase where
  | absent
  | running
  /-- In `pthread_create`, behind `OSThreadCreate`. -/
  | creating (child : Nat)
  /-- The result is stored, before `OSThreadExit`. -/
  | finishing
  | exited
  /-- In `pthread_join`, in `OSThreadWait(0)`. -/
  | waiting (thr : Nat)
  /-- Behind it, before the read of `thr->result`. -/
  | waited (thr : Nat)
  /-- Before the removal of the record, with what was read. -/
  | returning (thr result : Nat)
  deriving DecidableEq

def Phase.ended : Phase → Bool
  | .finishing | .exited => true
  | _ => false

/-- A process. `tid`, `result` are fields of the records, `table` are the records in the table,
`zombies` and `count` are `zombieQueue` and `zombieSemaphore` of the kernel, `value` is what each
thread has returned. A record is known to the program from the end of `pthread_create` to its
`pthread_join`. -/
structure State where
  nextThreadID : Nat
  phase : Nat → Phase
  tid : Nat → Nat
  result : Nat → Nat
  table : List Nat
  freed : List Nat
  known : List Nat
  zombies : List Nat
  count : Nat
  value : Nat → Nat
  aborted : Bool

def State.goto (s : State) (cur : Nat) (phase : Phase) : State :=
  { s with phase := Function.update s.phase cur phase }

def getTID (cur : Nat) : Nat := (toInt32 cur % word64).toNat

def pthread_self (s : State) (cur : Nat) : Option Nat :=
  s.table.find? (fun thr => s.tid thr = getTID cur)

inductive Label where
  /-- `pthread_create` up to a successful `OSThreadCreate`. -/
  | create (cur : Nat)
  /-- The rest of `pthread_create`. -/
  | insert (cur : Nat)
  | self (cur : Nat)
  /-- `pthread_exit` up to `OSThreadExit`. -/
  | exit (cur value : Nat)
  /-- The return of the entry function into `pthreadCreateHelper`. -/
  | finish (cur value : Nat)
  | osThreadExit (cur : Nat)
  | join (cur thr : Nat)
  | osThreadWait (cur : Nat)
  /-- The read of `thr->result`. -/
  | read (cur : Nat)
  /-- The removal from the table, `free` and the return. -/
  | remove (cur : Nat)

/-- The new thread with its zeroed record. -/
def State.spawn (s : State) : State :=
  let child := s.nextThreadID
  { s with
    nextThreadID := child + 1
    tid := Function.update s.tid child 0
    result := Function.update s.result child 0 }.goto child .running

/-- The new thread may run before its creator goes on. -/
def State.create (s : State) (cur : Nat) : State := s.spawn.goto cur (.creating s.nextThreadID)

/-- The status of `OSThreadCreate` decides whether the record goes to the table. -/
def State.insert (s : State) (cur child : Nat) : State :=
  let status := receive .OSThreadCreate (SYSCALL_PACK 0 child)
  if SYSCALL_ERRCODE status ≠ 0 then { s with freed := child :: s.freed }.goto cur .running
  else
    { s with
      tid := Function.update s.tid child (SYSCALL_VALUE status)
      table := child :: s.table
      known := child :: s.known }.goto cur .running

def State.store (s : State) (cur thr value : Nat) : State :=
  { s with
    result := Function.update s.result thr value
    value := Function.update s.value cur value }.goto cur .finishing

/-- `OSThreadWait(0)`: it waits for the semaphore and takes thread 0 off the queue if it is
there. -/
def State.osThreadWait (s : State) (cur thr : Nat) : State :=
  { s with count := s.count - 1, zombies := s.zombies.erase 0 }.goto cur (.waited thr)

def act (s : State) : Label → Option State
  | .create cur => if s.phase cur = .running then some (s.create cur) else none
  | .insert cur =>
    match s.phase cur with
    | .creating child => some (s.insert cur child)
    | _ => none
  | .self cur =>
    if s.phase cur = .running then
      match pthread_self s cur with
      | none => some { s with aborted := true }
      | some _ => some s
    else none
  | .exit cur value =>
    if s.phase cur = .running then
      match pthread_self s cur with
      | none => some { s with aborted := true }
      | some thr => some (s.store cur thr value)
    else none
  | .finish cur value =>
    if s.phase cur = .running ∧ cur ≠ 0 then some (s.store cur cur value) else none
  | .osThreadExit cur =>
    if s.phase cur = .finishing then
      some ({ s with count := s.count + 1, zombies := s.zombies ++ [cur] }.goto cur .exited)
    else none
  | .join cur thr =>
    if s.phase cur = .running ∧ thr ∈ s.known then
      some ({ s with known := s.known.erase thr }.goto cur (.waiting thr))
    else none
  | .osThreadWait cur =>
    match s.phase cur with
    | .waiting thr => if s.count = 0 then none else some (s.osThreadWait cur thr)
    | _ => none
  | .read cur =>
    match s.phase cur with
    | .waited thr => some (s.goto cur (.returning thr (s.result thr)))
    | _ => none
  | .remove cur =>
    match s.phase cur with
    | .returning thr _ =>
      some ({ s with table := s.table.erase thr, freed := thr :: s.freed }.goto cur .running)
    | _ => none

def apply (s : State) (label : Label) : Option State := if s.aborted then none else act s label

/-- The first thread, with the record that `__pthread_init` has made; `junk` is the content of its
`result`. -/
def initial (junk : Nat) : State :=
  { nextThreadID := 1
    phase := fun thr => if thr = 0 then .running else .absent
    tid := fun _ => 0
    result := fun thr => if thr = 0 then junk else 0
    table := [0]
    freed := []
    known := [0]
    zombies := []
    count := 0
    value := fun _ => 0
    aborted := false }

/-- `pthread_self` finds the record of its thread, and `pthread_join` returns after the end of the
thread with its value. -/
def Good (s : State) (label : Label) (_ : State) : Prop :=
  match label with
  | .self cur | .exit cur _ => pthread_self s cur = some cur
  | .remove cur =>
    match s.phase cur with
    | .returning thr result => s.phase thr = .exited ∧ result = s.value thr
    | _ => True
  | _ => True

/-- The order of the steps: a thread looks for itself after its creator has inserted its record, and
the `OSThreadWait` of a join comes after the `OSThreadExit` of the thread that is joined. The number of
threads stays within an `int`. -/
def Guard (s : State) (label : Label) (_ : State) : Prop :=
  match label with
  | .create _ => s.nextThreadID < 2 ^ 31
  | .self cur | .exit cur _ => ∀ creator < s.nextThreadID, s.phase creator ≠ .creating cur
  | .osThreadWait cur =>
    match s.phase cur with
    | .waiting thr => s.phase thr = .exited
    | _ => True
  | _ => True

/-- Every thread that has not ended is in the table or about to be put there, and the threads whose
join has waited have ended. -/
structure Inv (s : State) : Prop where
  few : s.nextThreadID ≤ 2 ^ 31
  tids : ∀ thr ∈ s.table, s.tid thr = thr ∧ thr < s.nextThreadID
  fresh : ∀ thr, s.nextThreadID ≤ thr → s.phase thr = .absent
  listed : ∀ thr, s.phase thr ≠ .absent → s.phase thr ≠ .exited →
    thr ∈ s.table ∨ ∃ creator, s.phase creator = .creating thr
  children : ∀ cur child, s.phase cur = .creating child → child < s.nextThreadID
  results : ∀ thr, (s.phase thr).ended = true → s.result thr = s.value thr
  joined : ∀ cur thr, s.phase cur = .waited thr ∨ (∃ result, s.phase cur = .returning thr result) →
    s.phase thr = .exited
  reads : ∀ cur thr result, s.phase cur = .returning thr result → result = s.value thr

theorem getTID_eq {cur : Nat} (small : cur < 2 ^ 31) : getTID cur = cur := by
  have received : getTID cur = _ := receive_int (show Wrapper.OSThreadCreate.returnsInt = true from rfl) cur
  rw [received, Nat.mod_eq_of_lt (by omega), if_pos small]

variable {cur : Nat} {s s' t : State}

theorem goto_phase_of_ne (s : State) {cur thr : Nat} (phase : Phase) (other : thr ≠ cur) :
    (s.goto cur phase).phase thr = s.phase thr :=
  update_of_ne other ..

theorem goto_phase_self (s : State) (cur : Nat) (phase : Phase) :
    (s.goto cur phase).phase cur = phase :=
  update_self ..

section

variable (inv : Inv s)
include inv

theorem Inv.self (running : s.phase cur = .running)
    (inserted : ∀ creator < s.nextThreadID, s.phase creator ≠ .creating cur) :
    pthread_self s cur = some cur := by
  have member : cur ∈ s.table := by
    refine (inv.listed cur (by simp [running]) (by simp [running])).resolve_right ?_
    rintro ⟨creator, creates⟩
    refine inserted creator (Nat.lt_of_not_le fun above => ?_) creates
    rw [inv.fresh creator above] at creates
    cases creates
  obtain ⟨own, below⟩ := inv.tids cur member
  have key : getTID cur = cur := getTID_eq (below.trans_le inv.few)
  rw [pthread_self, key]
  cases found : s.table.find? (fun thr => s.tid thr = cur) with
  | none => exact absurd own (by simpa using find?_eq_none.mp found cur member)
  | some thr =>
    have same : s.tid thr = cur := by simpa using find?_some found
    rw [← same, (inv.tids thr (mem_of_find?_eq_some found)).1]

/-- A step of a thread that goes on. -/
theorem Inv.goto {phase : Phase} (live : s.phase cur ≠ .absent ∧ s.phase cur ≠ .exited)
    (same : t.nextThreadID = s.nextThreadID ∧ t.phase = s.phase)
    (tids : ∀ thr ∈ t.table, t.tid thr = thr ∧ thr < s.nextThreadID)
    (listed : ∀ thr, thr ∈ s.table ∨ s.phase cur = .creating thr → s.phase thr ≠ .exited →
      thr ∈ t.table ∨ phase = .creating thr)
    (children : ∀ child, phase = .creating child → child < s.nextThreadID)
    (others : ∀ thr, thr ≠ cur → t.result thr = s.result thr ∧ t.value thr = s.value thr)
    (own : phase.ended = true → t.result cur = t.value cur)
    (joined : ∀ thr, phase = .waited thr ∨ (∃ result, phase = .returning thr result) →
      s.phase thr = .exited)
    (reads : ∀ thr result, phase = .returning thr result → result = s.value thr) :
    Inv (t.goto cur phase) := by
  obtain ⟨next, phases⟩ := same
  have away : ∀ thr, thr ≠ cur → (t.goto cur phase).phase thr = s.phase thr := fun thr other =>
    (goto_phase_of_ne t phase other).trans (congrFun phases thr)
  have exited : ∀ thr, s.phase thr = .exited → thr ≠ cur := by
    rintro thr gone rfl
    exact live.2 gone
  have kept : ∀ thr, s.phase thr = .exited → (t.goto cur phase).phase thr = .exited ∧ t.value thr = s.value thr :=
    fun thr gone => ⟨(away thr (exited thr gone)).trans gone, (others thr (exited thr gone)).2⟩
  refine ⟨next ▸ inv.few, next ▸ tids, fun thr above => ?_, fun thr present running => ?_,
    fun one child creates => ?_, fun thr ended => ?_, fun one thr waits => ?_, fun one thr result returns => ?_⟩
  · have new := inv.fresh thr (next ▸ above)
    have other : thr ≠ cur := by
      rintro rfl
      exact live.1 new
    rw [away thr other, new]
  · have before : s.phase thr ≠ .absent ∧ s.phase thr ≠ .exited := by
      by_cases same : thr = cur
      · exact same ▸ live
      · rw [away thr same] at present running
        exact ⟨present, running⟩
    have place : (thr ∈ s.table ∨ s.phase cur = .creating thr) ∨
        ∃ creator, creator ≠ cur ∧ s.phase creator = .creating thr := by
      rcases inv.listed thr before.1 before.2 with member | ⟨creator, creates⟩
      · exact .inl (.inl member)
      · by_cases same : creator = cur
        · exact .inl (.inr (same ▸ creates))
        · exact .inr ⟨creator, same, creates⟩
    rcases place with place | ⟨creator, other, creates⟩
    · rcases listed thr place before.2 with member | creates
      · exact .inl member
      · exact .inr ⟨cur, (goto_phase_self ..).trans creates⟩
    · exact .inr ⟨creator, (away creator other).trans creates⟩
  · show child < t.nextThreadID
    rw [next]
    by_cases same : one = cur
    · exact children child (by rwa [same, goto_phase_self] at creates)
    · exact inv.children one child (by rwa [away one same] at creates)
  · show t.result thr = t.value thr
    by_cases same : thr = cur
    · subst same
      exact own (by rwa [goto_phase_self] at ended)
    · rw [(others thr same).1, (others thr same).2]
      exact inv.results thr (by rwa [away thr same] at ended)
  · refine (kept thr ?_).1
    by_cases same : one = cur
    · exact joined thr (by rwa [same, goto_phase_self] at waits)
    · exact inv.joined one thr (by rwa [away one same] at waits)
  · show result = t.value thr
    by_cases same : one = cur
    · rw [same, goto_phase_self] at returns
      rw [(kept thr (joined thr (.inr ⟨result, returns⟩))).2]
      exact reads thr result returns
    · rw [away one same] at returns
      rw [(kept thr (inv.joined one thr (.inr ⟨result, returns⟩))).2]
      exact inv.reads one thr result returns

/-- A step that changes no record and only takes records of threads that have ended off the table. -/
theorem Inv.move {phase : Phase} (live : s.phase cur ≠ .absent ∧ s.phase cur ≠ .exited)
    (same : t.nextThreadID = s.nextThreadID ∧ t.phase = s.phase)
    (records : t.tid = s.tid ∧ t.result = s.result ∧ t.value = s.value)
    (table : ∀ thr ∈ t.table, thr ∈ s.table)
    (stays : ∀ thr ∈ s.table, s.phase thr ≠ .exited → thr ∈ t.table)
    (parent : ∀ child, s.phase cur ≠ .creating child) (childless : ∀ child, phase ≠ .creating child)
    (ended : phase.ended = true → (s.phase cur).ended = true)
    (joined : ∀ thr, phase = .waited thr ∨ (∃ result, phase = .returning thr result) →
      s.phase thr = .exited)
    (reads : ∀ thr result, phase = .returning thr result → result = s.value thr) :
    Inv (t.goto cur phase) := by
  obtain ⟨tid, result, value⟩ := records
  refine inv.goto live same (fun thr member => tid ▸ inv.tids thr (table thr member))
    (fun thr place running => .inl (stays thr (place.resolve_right (parent thr)) running))
    (fun child creates => absurd creates (childless child)) (fun thr _ => by rw [result, value]; exact ⟨rfl, rfl⟩)
    (fun finished => ?_) joined reads
  rw [result, value]
  exact inv.results cur (ended finished)

theorem Inv.create (running : s.phase cur = .running) (few : s.nextThreadID < 2 ^ 31) :
    Inv (s.create cur) := by
  have new := inv.fresh s.nextThreadID le_rfl
  have below : cur < s.nextThreadID := by
    by_contra above
    rw [inv.fresh cur (Nat.le_of_not_lt above)] at running
    cases running
  have own : (s.create cur).phase cur = .creating s.nextThreadID := goto_phase_self ..
  have child : (s.create cur).phase s.nextThreadID = .running :=
    (goto_phase_of_ne _ _ below.ne').trans (goto_phase_self ..)
  have old : ∀ thr, thr ≠ cur → thr ≠ s.nextThreadID → (s.create cur).phase thr = s.phase thr :=
    fun thr other older => (goto_phase_of_ne _ _ other).trans (goto_phase_of_ne _ _ older)
  -- what a thread was doing before, unless it is the creator or the new thread
  have origin : ∀ one phase, (s.create cur).phase one = phase → phase ≠ .running →
      phase ≠ .creating s.nextThreadID → s.phase one = phase := by
    intro one phase here idle other
    by_cases creator : one = cur
    · rw [creator, own] at here
      exact absurd here.symm other
    · by_cases started : one = s.nextThreadID
      · rw [started, child] at here
        exact absurd here.symm idle
      · rwa [old one creator started] at here
  have exited : ∀ thr, s.phase thr = .exited → (s.create cur).phase thr = .exited ∧ thr ≠ s.nextThreadID := by
    intro thr gone
    have other : thr ≠ cur := by
      rintro rfl
      simp [running] at gone
    have older : thr ≠ s.nextThreadID := by
      rintro rfl
      simp [new] at gone
    exact ⟨(old thr other older).trans gone, older⟩
  refine ⟨few, fun thr member => ?_, fun thr above => ?_, fun thr present unended => ?_,
    fun one thr creates => ?_, fun thr ended => ?_, fun one thr waits => ?_, fun one thr result returns => ?_⟩
  · obtain ⟨tid, less⟩ := inv.tids thr member
    exact ⟨(update_of_ne less.ne ..).trans tid, less.trans (Nat.lt_succ_self _)⟩
  · have above : s.nextThreadID + 1 ≤ thr := above
    rw [old thr (by omega) (by omega), inv.fresh thr (by omega)]
  · by_cases started : thr = s.nextThreadID
    · exact .inr ⟨cur, started ▸ own⟩
    · have before : s.phase thr ≠ .absent ∧ s.phase thr ≠ .exited := by
        by_cases same : thr = cur
        · simp [same, running]
        · rw [old thr same started] at present unended
          exact ⟨present, unended⟩
      refine (inv.listed thr before.1 before.2).imp id fun ⟨creator, creates⟩ => ⟨creator, ?_⟩
      rw [old creator ?_ ?_, creates]
      · rintro rfl
        simp [running] at creates
      · rintro rfl
        simp [new] at creates
  · show thr < s.nextThreadID + 1
    by_cases newest : thr = s.nextThreadID
    · omega
    · have := inv.children one thr (origin one _ creates (by simp) (by simp [newest]))
      omega
  · have before : (s.phase thr).ended = true := by
      rw [origin thr _ rfl (fun idle => ?_) (fun creates => ?_)]
      · exact ended
      · simp [idle, Phase.ended] at ended
      · simp [creates, Phase.ended] at ended
    have older : thr ≠ s.nextThreadID := by
      rintro rfl
      simp [new, Phase.ended] at before
    exact (update_of_ne older ..).trans (inv.results thr before)
  · refine (exited thr (inv.joined one thr (waits.imp (fun here => ?_) fun ⟨result, here⟩ => ⟨result, ?_⟩))).1
    · exact origin one _ here (by simp) (by simp)
    · exact origin one _ here (by simp) (by simp)
  · exact inv.reads one thr result (origin one _ returns (by simp) (by simp))

theorem Inv.insert {child : Nat} (creating : s.phase cur = .creating child) : Inv (s.insert cur child) := by
  have below := inv.children cur child creating
  have few := inv.few
  have received := receive_int (show Wrapper.OSThreadCreate.returnsInt = true from rfl)
    (SYSCALL_PACK 0 child)
  rw [show (0 : Int) = ((0 : Nat) : Int) from rfl, pack_low, Nat.mod_eq_of_lt (by omega),
    if_pos (by omega)] at received
  have passed : ¬ SYSCALL_ERRCODE (receive .OSThreadCreate (SYSCALL_PACK 0 child)) ≠ 0 := by
    rw [not_not, SYSCALL_ERRCODE, show SYSCALL_PACK 0 child = SYSCALL_PACK ((0 : Nat) : Int) child from rfl,
      received, Nat.shiftRight_eq_div_pow, Nat.div_eq_of_lt (by omega)]
    rfl
  have key : SYSCALL_VALUE (receive .OSThreadCreate (SYSCALL_PACK 0 child)) = child := by
    rw [SYSCALL_VALUE, show SYSCALL_PACK 0 child = SYSCALL_PACK ((0 : Nat) : Int) child from rfl, received,
      Nat.mod_eq_of_lt (by omega)]
  rw [State.insert, if_neg passed, key]
  refine inv.goto (by simp [creating]) ⟨rfl, rfl⟩ (forall_mem_cons.mpr ⟨?_, fun thr member => ?_⟩)
    (fun thr place _ => .inl ?_) (by simp) (fun _ _ => ⟨rfl, rfl⟩) (by simp [Phase.ended]) (by simp) (by simp)
  · exact ⟨update_self .., below⟩
  · obtain ⟨tid, less⟩ := inv.tids thr member
    refine ⟨?_, less⟩
    show update s.tid child child thr = thr
    by_cases same : thr = child
    · rw [same, update_self]
    · rw [update_of_ne same, tid]
  · rcases place with member | creates
    · exact mem_cons_of_mem _ member
    · rw [creating, Phase.creating.injEq] at creates
      exact creates ▸ mem_cons_self

theorem Inv.store {value : Nat} (running : s.phase cur = .running) : Inv (s.store cur cur value) := by
  refine inv.goto (by simp [running]) ⟨rfl, rfl⟩ inv.tids
    (fun thr place _ => .inl (place.resolve_right (by simp [running]))) (by simp)
    (fun thr other => ⟨update_of_ne other .., update_of_ne other ..⟩) (fun _ => ?_) (by simp) (by simp)
  show update s.result cur value cur = update s.value cur value cur
  rw [update_self, update_self]

theorem Inv.act {label : Label} (moved : act s label = some s') (guarded : Guard s label s') : Inv s' := by
  cases label with
  | create cur =>
    obtain ⟨running, rfl⟩ := ite_some_none_eq_some.mp moved
    exact inv.create running guarded
  | insert cur =>
    cases phase : s.phase cur with
    | creating child =>
      simp only [Pthread.act, phase, some.injEq] at moved
      exact moved ▸ inv.insert phase
    | _ => simp [Pthread.act, phase] at moved
  | self cur =>
    by_cases running : s.phase cur = .running
    · simp only [Pthread.act, if_pos running, inv.self running guarded] at moved
      cases moved
      exact inv
    · simp [Pthread.act, running] at moved
  | exit cur value =>
    by_cases running : s.phase cur = .running
    · simp only [Pthread.act, if_pos running, inv.self running guarded] at moved
      cases moved
      exact inv.store running
    · simp [Pthread.act, running] at moved
  | finish cur value =>
    obtain ⟨⟨running, _⟩, rfl⟩ := ite_some_none_eq_some.mp moved
    exact inv.store running
  | osThreadExit cur =>
    obtain ⟨finishing, rfl⟩ := ite_some_none_eq_some.mp moved
    exact inv.move (by simp [finishing]) ⟨rfl, rfl⟩ ⟨rfl, rfl, rfl⟩ (fun _ => id) (fun _ h _ => h)
      (by simp [finishing]) (by simp) (by simp [finishing, Phase.ended]) (by simp) (by simp)
  | join cur thr =>
    obtain ⟨⟨running, _⟩, rfl⟩ := ite_some_none_eq_some.mp moved
    exact inv.move (by simp [running]) ⟨rfl, rfl⟩ ⟨rfl, rfl, rfl⟩ (fun _ => id) (fun _ h _ => h)
      (by simp [running]) (by simp) (by simp [Phase.ended]) (by simp) (by simp)
  | osThreadWait cur =>
    cases phase : s.phase cur with
    | waiting thr =>
      simp only [Pthread.act, phase] at moved
      obtain ⟨_, result⟩ := ite_none_left_eq_some.mp moved
      cases result
      refine inv.move (by simp [phase]) ⟨rfl, rfl⟩ ⟨rfl, rfl, rfl⟩ (fun _ => id) (fun _ h _ => h)
        (by simp [phase]) (by simp) (by simp [Phase.ended]) ?_ (by simp)
      rintro other (same | ⟨_, same⟩) <;> cases same
      simpa only [Guard, phase] using guarded
    | _ => simp [Pthread.act, phase] at moved
  | read cur =>
    cases phase : s.phase cur with
    | waited thr =>
      simp only [Pthread.act, phase, some.injEq] at moved
      subst moved
      have gone := inv.joined cur thr (.inl phase)
      refine inv.move (by simp [phase]) ⟨rfl, rfl⟩ ⟨rfl, rfl, rfl⟩ (fun _ => id) (fun _ h _ => h)
        (by simp [phase]) (by simp) (by simp [Phase.ended]) ?_ ?_
      · rintro other (same | ⟨_, same⟩) <;> cases same
        exact gone
      · rintro other result same
        cases same
        exact inv.results thr (by rw [gone]; rfl)
    | _ => simp [Pthread.act, phase] at moved
  | remove cur =>
    cases phase : s.phase cur with
    | returning thr result =>
      simp only [Pthread.act, phase, some.injEq] at moved
      subst moved
      have gone := inv.joined cur thr (.inr ⟨result, phase⟩)
      refine inv.move (by simp [phase]) ⟨rfl, rfl⟩ ⟨rfl, rfl, rfl⟩ (fun _ => mem_of_mem_erase) ?_
        (by simp [phase]) (by simp) (by simp [Phase.ended]) (by simp) (by simp)
      intro other member unended
      refine (mem_erase_of_ne ?_).mpr member
      rintro rfl
      exact unended gone
    | _ => simp [Pthread.act, phase] at moved

theorem Inv.good {label : Label} (moved : Pthread.act s label = some s') (guarded : Guard s label s') :
    Good s label s' := by
  cases label with
  | self cur | exit cur _ =>
    by_cases running : s.phase cur = .running
    · exact inv.self running guarded
    · simp [Pthread.act, running] at moved
  | remove cur =>
    cases phase : s.phase cur with
    | returning thr result =>
      simp only [Good, phase]
      exact ⟨inv.joined cur thr (.inr ⟨result, phase⟩), inv.reads cur thr result phase⟩
    | _ => simp only [Good, phase]
  | _ => trivial

end

theorem initial_inv (junk : Nat) : Inv (initial junk) where
  few := Nat.one_le_two_pow
  tids := by simp [initial]
  fresh := fun thr above => if_neg (Nat.ne_of_gt above)
  listed := by
    intro thr there _
    by_cases first : thr = 0 <;> simp [initial, first] at there ⊢
  children := by
    intro cur child creates
    by_cases first : cur = 0 <;> simp [initial, first] at creates
  results := by
    intro thr ended
    by_cases first : thr = 0 <;> simp [initial, first, Phase.ended] at ended
  joined := by
    intro cur thr waits
    by_cases first : cur = 0 <;> simp [initial, first] at waits
  reads := by
    intro cur thr result returns
    by_cases first : cur = 0 <;> simp [initial, first] at returns

instance (s : State) (label : Label) (s' : State) : Decidable (Good s label s') := by
  unfold Good
  split
  · infer_instance
  · infer_instance
  · split <;> infer_instance
  · infer_instance

instance (s : State) (label : Label) (s' : State) : Decidable (Guard s label s') := by
  unfold Guard
  split
  · infer_instance
  · infer_instance
  · infer_instance
  · split <;> infer_instance
  · infer_instance

end BoringOs.Pthread
