import BoringOs.Lib.Runs

/-! The mutexes of `lib/libc/posix/pthread.c`. Each read or write of `*mutex`, `malloc` and the
test-and-set are one step. -/

namespace BoringOs.PthreadMutex

open Function Runs

inductive Call where
  | lock
  | trylock
  | unlock

/-- The test of `*mutex`, the `malloc` and the store of `pthread_mutex_init`, the second read of
`*mutex` and the access to the object. -/
inductive Stage where
  | test
  | malloc
  | store (mtx : Nat)
  | load
  | access (mtx : Nat)

inductive Pc where
  | outside
  | holding
  | calling (call : Call) (stage : Stage)

/-- `lock` by the objects, which are numbered as they are allocated. -/
structure State (Thread : Type) where
  mutex : Option Nat
  lock : Nat → Bool
  next : Nat
  pc : Thread → Pc

inductive Label (Thread : Type) where
  | call (thr : Thread) (call : Call)
  /-- The next step of a call; a `malloc` succeeds or not. -/
  | run (thr : Thread) (allocated : Bool)

variable {Thread : Type} [DecidableEq Thread]

def State.goto (s : State Thread) (thr : Thread) (pc : Pc) : State Thread :=
  { s with pc := update s.pc thr pc }

def act (s : State Thread) : Label Thread → Option (State Thread)
  | .call thr call =>
    match s.pc thr, call with
    | .outside, .lock | .outside, .trylock | .holding, .unlock =>
      some (s.goto thr (.calling call .test))
    | _, _ => none
  | .run thr allocated =>
    match s.pc thr with
    | .calling call .test =>
      some (s.goto thr (.calling call (if s.mutex = none then .malloc else .load)))
    | .calling call .malloc =>
      if allocated then
        some ({ s with lock := update s.lock s.next false, next := s.next + 1 }.goto thr
          (.calling call (.store s.next)))
      else some (s.goto thr (match call with | .unlock => .holding | _ => .outside))
    | .calling call (.store mtx) =>
      some ({ s with mutex := some mtx }.goto thr (.calling call .load))
    | .calling call .load => s.mutex.map fun mtx => s.goto thr (.calling call (.access mtx))
    | .calling .unlock (.access mtx) =>
      some ({ s with lock := update s.lock mtx false }.goto thr .outside)
    | .calling call (.access mtx) =>
      if s.lock mtx then some (match call with | .trylock => s.goto thr .outside | _ => s)
      else some ({ s with lock := update s.lock mtx true }.goto thr .holding)
    | _ => none

def Step (s : State Thread) (label : Label Thread) (t : State Thread) : Prop := act s label = some t

/-- From a successful `lock` or `trylock` to the release. -/
def Pc.Holds : Pc → Prop
  | .holding | .calling .unlock _ => True
  | _ => False

/-- No object is stored to `*mutex` over another one. -/
def Lone (s : State Thread) : Label Thread → Prop
  | .run thr _ =>
    match s.pc thr with
    | .calling _ (.store _) => s.mutex = none
    | _ => True
  | .call _ _ => True

/-- What a thread may be doing while `*mutex` is `mutex` and the objects below `next` are allocated. -/
def Pc.Fits (mutex : Option Nat) (next : Nat) : Pc → Prop
  | .outside => True
  | .holding => mutex ≠ none
  | .calling call .test => call = .unlock → mutex ≠ none
  | .calling call .malloc => call ≠ .unlock
  | .calling call (.store mtx) => call ≠ .unlock ∧ mtx < next
  | .calling _ .load => mutex ≠ none
  | .calling _ (.access mtx) => mutex = some mtx

structure Inv (owner : Option Thread) (s : State Thread) : Prop where
  old : ∀ mtx, s.mutex = some mtx → mtx < s.next
  fits : ∀ thr, (s.pc thr).Fits s.mutex s.next
  owns : ∀ thr, (s.pc thr).Holds → owner = some thr
  locked : ∀ thr, owner = some thr → ∃ mtx, s.mutex = some mtx ∧ s.lock mtx = true

variable {s t : State Thread} {owner owner' : Option Thread} {thr : Thread} {pc : Pc} {mutex : Option Nat}
  {next mtx : Nat}

theorem Pc.Fits.later (fits : pc.Fits mutex next) : pc.Fits mutex (next + 1) := by
  cases pc with
  | calling call stage =>
    cases stage with
    | store mtx => exact ⟨fits.1, Nat.lt_succ_of_lt fits.2⟩
    | _ => exact fits
  | _ => exact fits

theorem Pc.Fits.stored (fits : pc.Fits none next) (mtx : Nat) : pc.Fits (some mtx) next := by
  cases pc with
  | calling call stage =>
    cases stage with
    | access other => cases fits
    | test | load => simp [Pc.Fits]
    | _ => exact fits
  | _ => simp [Pc.Fits]

theorem inv_goto (same : t.pc = s.pc) (old : ∀ mtx, t.mutex = some mtx → mtx < t.next)
    (fits : pc.Fits t.mutex t.next) (others : ∀ x, x ≠ thr → (s.pc x).Fits t.mutex t.next)
    (own : pc.Holds → owner' = some thr) (keep : ∀ x, x ≠ thr → (s.pc x).Holds → owner' = some x)
    (locked : ∀ x, owner' = some x → ∃ mtx, t.mutex = some mtx ∧ t.lock mtx = true) :
    Inv owner' (t.goto thr pc) where
  old := old
  fits := by
    show ∀ x, (update t.pc thr pc x).Fits t.mutex t.next
    rw [same]
    exact (forall_update_iff s.pc fun _ => Pc.Fits t.mutex t.next).mpr ⟨fits, others⟩
  owns := by
    show ∀ x, (update t.pc thr pc x).Holds → _
    rw [same]
    exact (forall_update_iff s.pc fun x pc => Pc.Holds pc → owner' = some x).mpr ⟨own, keep⟩
  locked := locked

section

variable (inv : Inv owner s)
include inv

/-- A step of a call that takes and releases nothing. -/
theorem Inv.goto (fits : pc.Fits s.mutex s.next) (held : pc.Holds → (s.pc thr).Holds) :
    ∃ owner, Inv owner (s.goto thr pc) :=
  ⟨owner, inv_goto (s := s) rfl inv.old fits (fun x _ => inv.fits x) (fun holds => inv.owns thr (held holds))
    (fun x _ => inv.owns x) inv.locked⟩

theorem Inv.malloc {call : Call} (apart : call ≠ .unlock) :
    Inv owner ({ s with lock := update s.lock s.next false, next := s.next + 1 }.goto thr
      (.calling call (.store s.next))) := by
  refine inv_goto (s := s) rfl (fun mtx here => Nat.lt_succ_of_lt (inv.old mtx here))
    ⟨apart, Nat.lt_succ_self _⟩ (fun x _ => (inv.fits x).later) (fun holds => ?_) (fun x _ => inv.owns x)
    (fun x owns => ?_)
  · cases call with
    | unlock => exact absurd rfl apart
    | _ => cases holds
  · obtain ⟨mtx, here, locked⟩ := inv.locked x owns
    exact ⟨mtx, here, (update_of_ne (Nat.ne_of_lt (inv.old mtx here)) ..).trans locked⟩

/-- The first object is stored while nobody holds or uses another one. -/
theorem Inv.store {call : Call} (unset : s.mutex = none) (here : s.pc thr = .calling call (.store mtx)) :
    ∃ owner, Inv owner ({ s with mutex := some mtx }.goto thr (.calling call .load)) := by
  have fits := inv.fits thr
  rw [here] at fits
  refine ⟨owner, inv_goto (s := s) rfl ?_ (by simp [Pc.Fits]) (fun x _ => ?_) (fun holds => ?_) (fun x _ => inv.owns x)
    (fun x owns => ?_)⟩
  · rintro _ ⟨⟩
    exact fits.2
  · exact (unset ▸ inv.fits x).stored mtx
  · cases call with
    | unlock => exact absurd rfl fits.1
    | _ => cases holds
  · obtain ⟨_, some, _⟩ := inv.locked x owns
    rw [unset] at some
    cases some

theorem Inv.acquire (here : s.mutex = some mtx) (unlocked : s.lock mtx = false) :
    Inv (some thr) ({ s with lock := update s.lock mtx true }.goto thr .holding) := by
  refine inv_goto (s := s) rfl inv.old (by simp [Pc.Fits, here]) (fun x _ => inv.fits x) (fun _ => rfl)
    (fun x _ holds => ?_) (fun _ _ => ⟨mtx, here, update_self ..⟩)
  obtain ⟨other, there, locked⟩ := inv.locked x (inv.owns x holds)
  rw [here] at there
  cases there
  rw [unlocked] at locked
  cases locked

theorem Inv.release (holds : (s.pc thr).Holds) :
    Inv none ({ s with lock := update s.lock mtx false }.goto thr .outside) := by
  refine inv_goto (s := s) rfl inv.old trivial (fun x _ => inv.fits x) nofun (fun x apart other => ?_) nofun
  exact absurd (Option.some.inj ((inv.owns x other).symm.trans (inv.owns thr holds))) apart

theorem Inv.act {label : Label Thread} (moved : act s label = some t) (lone : Lone s label) :
    ∃ owner, Inv owner t := by
  cases label with
  | call thr call =>
    have fits := inv.fits thr
    simp only [PthreadMutex.act] at moved
    split at moved <;> cases moved
    · exact inv.goto nofun nofun
    · exact inv.goto nofun nofun
    · refine inv.goto (fun _ => ?_) (fun _ => ?_) <;> simp_all [Pc.Fits, Pc.Holds]
  | run thr allocated =>
    have fits := inv.fits thr
    cases here : s.pc thr with
    | outside | holding => simp [PthreadMutex.act, here] at moved
    | calling call stage =>
      have held : ∀ stage, (Pc.calling call stage).Holds → (s.pc thr).Holds := by
        cases call <;> simp [here, Pc.Holds]
      rw [here] at fits
      cases stage with
      | test =>
        simp only [PthreadMutex.act, here] at moved
        cases moved
        refine inv.goto ?_ (held _)
        split
        · next unset => exact fun unlocks => fits unlocks unset
        · next set => exact set
      | malloc =>
        cases allocated <;> simp only [PthreadMutex.act, here] at moved <;> cases moved
        · cases call with
          | unlock => exact absurd rfl fits
          | _ => exact inv.goto trivial nofun
        · exact ⟨_, inv.malloc fits⟩
      | store mtx =>
        simp only [PthreadMutex.act, here] at moved
        cases moved
        simp only [Lone, here] at lone
        exact inv.store lone here
      | load =>
        cases there : s.mutex with
        | none => exact absurd there fits
        | some mtx =>
          simp only [PthreadMutex.act, here, there] at moved
          cases moved
          exact inv.goto there (held _)
      | access mtx =>
        cases call with
        | unlock =>
          simp only [PthreadMutex.act, here] at moved
          cases moved
          exact ⟨_, inv.release (held .test trivial)⟩
        | lock | trylock =>
          cases locked : s.lock mtx <;> simp only [PthreadMutex.act, here, locked] at moved <;> cases moved
          · exact ⟨_, inv.acquire fits locked⟩
          · first | exact ⟨_, inv⟩ | exact inv.goto trivial nofun

end

/-- At most one thread at a time holds a mutex, initialised or not, in every interleaving in which no
object is stored to `*mutex` over another one. -/
theorem mutex_excludes {start s : State Thread} {labels : List (Label Thread)}
    (allocated : ∀ mtx, start.mutex = some mtx → mtx < start.next)
    (outside : ∀ thr, start.pc thr = .outside)
    (ran : Run (fun s label t => Step s label t ∧ Lone s label) start labels s) {a b : Thread}
    (one : (s.pc a).Holds) (other : (s.pc b).Holds) : a = b := by
  have first : Inv none start := by
    refine ⟨allocated, fun thr => ?_, fun thr holds => ?_, nofun⟩
    · rw [outside]
      trivial
    · rw [outside] at holds
      exact holds.elim
  obtain ⟨_, inv⟩ := ran.invariant (fun s => ∃ owner, Inv owner s)
    (fun _ _ _ inv moved => inv.choose_spec.act moved.1 moved.2) ⟨_, first⟩
  exact Option.some.inj ((inv.owns a one).symm.trans (inv.owns b other))

def unused (mutex : Option Nat) : State Bool := ⟨mutex, fun _ => false, 1, fun _ => .outside⟩

instance (s : State Thread) (label : Label Thread) : Decidable (Lone s label) := by
  unfold Lone
  split
  · split <;> infer_instance
  · infer_instance

def Pc.isHolding : Pc → Bool
  | .holding => true
  | _ => false

/-- One thread makes the object, the other tries and fails, and takes the mutex after its release. -/
theorem mutex_excludes_two : ∃ s : State Bool, (s.pc true).Holds ∧
    ∀ b, (s.pc b).Holds → b = true := by
  let labels : List (Label Bool) :=
    [.call false .lock, .run false true, .run false true, .run false true, .run false true,
      .run false true, .call true .trylock, .run true true, .run true true, .run true true,
      .call false .unlock, .call true .lock, .run false true, .run false true, .run false true,
      .run true true, .run true true, .run true true]
  have ran : ∃ s, Run (fun s label t => Step s label t ∧ Lone s label) (unused none) labels s ∧
      (s.pc true).isHolding = true := by
    refine @Run.of_exec_any _ _ _ (fun s label => if Lone s label then act s label else none) _ _ _ ?_ rfl
    intro s label _ t moved
    obtain ⟨lone, moved⟩ := Option.ite_none_right_eq_some.mp moved
    exact ⟨moved, lone⟩
  obtain ⟨s, ran, holding⟩ := ran
  have holds : (s.pc true).Holds := by
    cases here : s.pc true with
    | holding => trivial
    | _ => simp [here, Pc.isHolding] at holding
  exact ⟨s, holds, fun b other => mutex_excludes (by simp [unused]) (fun _ => rfl) ran other holds⟩

/-- Two threads find `*mutex` unset, and each makes and takes an object of its own. -/
theorem mutex_made_twice : ∃ s, [.call true .lock, .call false .lock, .run true true, .run false true,
    .run true true, .run true true, .run true true, .run true true,
    .run false true, .run false true, .run false true, .run false true].foldlM act (unused none) =
    some s ∧ s.pc true = .holding ∧ s.pc false = .holding := ⟨_, rfl, rfl, rfl⟩

end BoringOs.PthreadMutex
