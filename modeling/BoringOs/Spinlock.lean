import BoringOs.Lib.Runs
import Mathlib.Data.Fintype.Basic

/-! The recursive spinlock of `sys/kern/spinlock.c`, one access to the lock a step.

Time stamps, statistics and the lock stack are left out: no access to `lock->lock`,
`lock->cpu` or `lock->rCount` depends on them. -/

namespace BoringOs.Spinlock

open Runs Option Function

abbrev MAX_CPUS : Nat := 16

abbrev Cpu : Type := Fin MAX_CPUS

/-- What a CPU does next with a lock of type `SPINLOCK_TYPE_RECURSIVE`. -/
inductive Pc where
  /-- Outside of `Spinlock_Lock` and `Spinlock_Unlock`. -/
  | idle
  /-- `atomic_swap_uint64(&lock->lock, 1)`. -/
  | swap
  /-- `lock->cpu == CPU()` after a swap that returned 1. -/
  | compare
  /-- `lock->cpu = CPU()`. -/
  | own
  /-- The two accesses of `lock->rCount++`. -/
  | load
  | increment (rCount : Nat)
  /-- `lock->rCount == 1`, for the time stamp. -/
  | stamp
  /-- `ASSERT(lock->cpu == CPU())`. -/
  | verify
  /-- The two accesses of `lock->rCount--`. -/
  | fetch
  | decrement (rCount : Nat)
  /-- `lock->rCount == 0`. -/
  | test
  /-- `lock->cpu = 0`. -/
  | disown
  /-- `atomic_set_uint64(&lock->lock, 0)`. -/
  | release
  deriving DecidableEq

/-- The lock with the CPUs that use it. `depth` counts the calls of `Spinlock_Lock` that
have returned and have no `Spinlock_Unlock` that has. `rCount`, a `uint64_t`, is exact for fewer
than 2 ^ 64 nested calls. -/
structure State where
  lock : Nat
  cpu : Nat
  rCount : Nat
  pc : Cpu → Pc
  depth : Cpu → Nat

def spinlock_Init : State := ⟨0, 0, 0, fun _ => .idle, fun _ => 0⟩

def State.goto (s : State) (c : Cpu) (pc : Pc) : State := { s with pc := Function.update s.pc c pc }

def State.setDepth (s : State) (c : Cpu) (depth : Nat) : State :=
  { s with depth := Function.update s.depth c depth }

/-- One access by CPU `c` in the call it has entered; `none` for a failed `ASSERT`. -/
def advance (s : State) (c : Cpu) : Option State :=
  match s.pc c with
  | .idle => none
  | .swap =>
    if s.lock = 1 then some (s.goto c .compare) else some ({ s with lock := 1 }.goto c .own)
  | .compare => if s.cpu = c.val then some (s.goto c .own) else some (s.goto c .swap)
  | .own => some ({ s with cpu := c.val }.goto c .load)
  | .load => some (s.goto c (.increment s.rCount))
  | .increment rCount => some ({ s with rCount := rCount + 1 }.goto c .stamp)
  | .stamp => some ((s.goto c .idle).setDepth c (s.depth c + 1))
  | .verify => if s.cpu = c.val then some (s.goto c .fetch) else none
  | .fetch => some (s.goto c (.decrement s.rCount))
  | .decrement rCount => some ({ s with rCount := rCount - 1 }.goto c .test)
  | .test =>
    if s.rCount = 0 then some (s.goto c .disown)
    else some ((s.goto c .idle).setDepth c (s.depth c - 1))
  | .disown => some ({ s with cpu := 0 }.goto c .release)
  | .release => some (({ s with lock := 0 }.goto c .idle).setDepth c (s.depth c - 1))

inductive Action where
  /-- Call `Spinlock_Lock`. -/
  | lock
  /-- Call `Spinlock_Unlock` on a lock that the CPU has locked. -/
  | unlock
  /-- Go on with the call. -/
  | go
  deriving DecidableEq

def act (s : State) (c : Cpu) : Action → Option State
  | .lock => if s.pc c = .idle then some (s.goto c .swap) else none
  | .unlock => if s.pc c = .idle ∧ 0 < s.depth c then some (s.goto c .verify) else none
  | .go => advance s c

/-- A step of one of the CPUs that use the lock. -/
def Step (users : Set Cpu) (s : State) (label : Cpu × Action) (t : State) : Prop :=
  label.1 ∈ users ∧ act s label.1 label.2 = some t

/-- At most one CPU holds the lock, and `rCount` is its nesting depth. -/
structure Exclusive (s : State) : Prop where
  single : ∀ c d, 0 < s.depth c → 0 < s.depth d → c = d
  nesting : ∀ c, s.pc c = .idle → 0 < s.depth c → s.rCount = s.depth c

section

variable (s : State) (c : Cpu)

@[simp] theorem goto_lock (pc : Pc) : (s.goto c pc).lock = s.lock := rfl

@[simp] theorem goto_cpu (pc : Pc) : (s.goto c pc).cpu = s.cpu := rfl

@[simp] theorem goto_rCount (pc : Pc) : (s.goto c pc).rCount = s.rCount := rfl

@[simp] theorem goto_depth (pc : Pc) : (s.goto c pc).depth = s.depth := rfl

@[simp] theorem goto_pc_self (pc : Pc) : (s.goto c pc).pc c = pc := update_self ..

theorem goto_pc_other (pc : Pc) {d : Cpu} (other : d ≠ c) : (s.goto c pc).pc d = s.pc d :=
  update_of_ne other ..

section

variable (depth : Nat)
include depth

@[simp] theorem setDepth_lock : (s.setDepth c depth).lock = s.lock := rfl

@[simp] theorem setDepth_cpu : (s.setDepth c depth).cpu = s.cpu := rfl

@[simp] theorem setDepth_rCount : (s.setDepth c depth).rCount = s.rCount := rfl

@[simp] theorem setDepth_pc : (s.setDepth c depth).pc = s.pc := rfl

@[simp] theorem setDepth_depth_self : (s.setDepth c depth).depth c = depth :=
  update_self ..

theorem setDepth_depth_other {d : Cpu} (other : d ≠ c) :
    (s.setDepth c depth).depth d = s.depth d := update_of_ne other ..

end

end

/-- A CPU that neither holds the lock nor has won it. CPU 0 never gets to compare. -/
def Outside (s : State) (d : Cpu) : Prop :=
  s.depth d = 0 ∧ (s.pc d = .idle ∨ s.pc d = .swap ∨ s.pc d = .compare ∧ d.val ≠ 0)

def Owns (s : State) (c : Cpu) : Prop :=
  match s.pc c with
  | .idle | .swap | .compare | .verify | .fetch => 0 < s.depth c ∧ s.cpu = c.val ∧ s.rCount = s.depth c
  | .own => (s.cpu = c.val ∨ s.cpu = 0) ∧ s.rCount = s.depth c
  | .load => s.cpu = c.val ∧ s.rCount = s.depth c
  | .increment rCount => s.cpu = c.val ∧ s.rCount = s.depth c ∧ rCount = s.depth c
  | .stamp => s.cpu = c.val ∧ s.rCount = s.depth c + 1
  | .decrement rCount => 0 < s.depth c ∧ s.cpu = c.val ∧ rCount = s.depth c
  | .test => s.cpu = c.val ∧ s.rCount + 1 = s.depth c
  | .disown => s.cpu = c.val ∧ s.rCount = 0 ∧ s.depth c = 1
  | .release => s.cpu = 0 ∧ s.rCount = 0 ∧ s.depth c = 1

variable {s t : State} {users : Set Cpu} {action : Action}

inductive Inv (users : Set Cpu) (s : State) : Prop where
  | free (lock : s.lock = 0) (cpu : s.cpu = 0) (rCount : s.rCount = 0)
      (others : ∀ d, Outside s d) : Inv users s
  | owned (c : Cpu) (user : c ∈ users) (lock : s.lock = 1) (owns : Owns s c)
      (others : ∀ d, d ≠ c → Outside s d) : Inv users s

theorem Owns.cpu {c : Cpu} (owns : Owns s c) : s.cpu = c.val ∨ s.cpu = 0 := by
  unfold Owns at owns
  split at owns <;> omega

theorem act_frame {c : Cpu} (moved : act s c action = some t)
    {d : Cpu} (other : d ≠ c) : t.pc d = s.pc d ∧ t.depth d = s.depth d := by
  have goto : ∀ (u : State) pc, (u.goto c pc).pc d = u.pc d := fun u pc => goto_pc_other u c pc other
  have depth : ∀ (u : State) n, (u.setDepth c n).depth d = u.depth d :=
    fun u n => setDepth_depth_other u c n other
  cases action with
  | lock =>
    simp only [act, ite_none_right_eq_some, some.injEq] at moved
    rw [← moved.2]
    exact ⟨goto _ _, rfl⟩
  | unlock =>
    simp only [act, ite_none_right_eq_some, some.injEq] at moved
    rw [← moved.2]
    exact ⟨goto _ _, rfl⟩
  | go =>
    simp only [act, advance] at moved
    split at moved <;> try split at moved
    all_goals cases moved
    all_goals simp [goto, depth]

theorem Outside.frame {d : Cpu} (outside : Outside s d)
    (same : t.pc d = s.pc d ∧ t.depth d = s.depth d) : Outside t d := by
  unfold Outside
  rw [same.1, same.2]
  exact outside

theorem owner_step {c : Cpu} (user : c ∈ users) (lock : s.lock = 1)
    (owns : Owns s c) (others : ∀ d, d ≠ c → Outside s d)
    (moved : act s c action = some t) : Inv users t := by
  have rest : ∀ d, d ≠ c → Outside t d :=
    fun d other => (others d other).frame (act_frame moved other)
  cases action with
  | lock =>
    simp only [act, ite_none_right_eq_some, some.injEq] at moved
    obtain ⟨at_idle, rfl⟩ := moved
    refine .owned c user lock ?_ rest
    simpa [Owns, at_idle] using owns
  | unlock =>
    simp only [act, ite_none_right_eq_some, some.injEq] at moved
    obtain ⟨⟨at_idle, _⟩, rfl⟩ := moved
    refine .owned c user lock ?_ rest
    simpa [Owns, at_idle] using owns
  | go =>
    simp only [act, advance] at moved
    cases here : s.pc c with
    | idle => simp [here] at moved
    | swap =>
      simp only [here, lock, ↓reduceIte, some.injEq] at moved
      subst moved
      refine .owned c user lock ?_ rest
      simpa [Owns, here] using owns
    | compare =>
      simp only [Owns, here] at owns
      simp only [here, owns.2.1, ↓reduceIte, some.injEq] at moved
      subst moved
      exact .owned c user lock (by simpa [Owns] using ⟨.inl owns.2.1, owns.2.2⟩) rest
    | verify =>
      simp only [Owns, here] at owns
      simp only [here, owns.2.1, ↓reduceIte, some.injEq] at moved
      subst moved
      exact .owned c user lock (by simpa [Owns] using owns) rest
    | test =>
      simp only [Owns, here] at owns
      simp only [here] at moved
      split at moved
      · obtain rfl := some.inj moved
        exact .owned c user lock (by simp [Owns]; omega) rest
      · obtain rfl := some.inj moved
        exact .owned c user lock (by simp [Owns]; omega) rest
    | release =>
      simp only [Owns, here] at owns
      simp only [here, some.injEq] at moved
      subst moved
      refine .free rfl owns.1 owns.2.1 ?_
      intro d
      by_cases self : d = c
      · subst self
        refine ⟨?_, .inl ?_⟩
        · simp [owns.2.2]
        · simp
      · exact rest d self
    | _ =>
      simp only [Owns, here] at owns
      simp only [here, some.injEq] at moved
      subst moved
      exact .owned c user lock (by simp [Owns]; omega) rest

theorem outside_step {d : Cpu} (user : d ∈ users) (inv : Inv users s) (outside : Outside s d)
    (foreign : s.lock = 1 → s.cpu ≠ d.val ∧ d.val ≠ 0)
    (moved : act s d action = some t) : Inv users t := by
  -- whoever owns the lock keeps it, unless `d` takes a free one
  have stays : ∀ pc, t = s.goto d pc → Outside t d → Inv users t := by
    intro pc same still
    cases inv with
    | free lock cpu rCount others =>
      subst same
      refine .free lock cpu rCount ?_
      intro e
      by_cases self : e = d
      · exact self ▸ still
      · exact (others e).frame (act_frame moved self)
    | owned c owner lock owns others =>
      have apart : c ≠ d := by
        rintro rfl
        have clear := outside.1
        have place := outside.2
        unfold Owns at owns
        rcases place with here | here | here <;> simp [here] at owns <;> omega
      refine .owned c owner (by rw [same]; exact lock) ?_ ?_
      · unfold Owns at owns ⊢
        rw [same, goto_pc_other s d pc apart]
        exact owns
      · intro e other
        by_cases self : e = d
        · exact self ▸ still
        · exact (others e other).frame (act_frame moved self)
  obtain ⟨clear, place⟩ := outside
  cases action with
  | lock =>
    simp only [act, ite_none_right_eq_some, some.injEq] at moved
    obtain ⟨_, rfl⟩ := moved
    exact stays _ rfl ⟨clear, .inr (.inl (goto_pc_self ..))⟩
  | unlock =>
    simp only [act, ite_none_right_eq_some, some.injEq] at moved
    omega
  | go =>
    have moved' := moved
    simp only [act, advance] at moved'
    rcases place with here | here | ⟨here, positive⟩
    · simp [here] at moved'
    · simp only [here] at moved'
      split at moved'
      · rename_i taken
        obtain rfl := some.inj moved'
        exact stays _ rfl ⟨clear, .inr (.inr ⟨goto_pc_self .., (foreign taken).2⟩)⟩
      · rename_i available
        obtain rfl := some.inj moved'
        cases inv with
        | free lock cpu rCount others =>
          refine .owned d user rfl ?_ ?_
          · simp [Owns, cpu, rCount, clear]
          · intro e other
            exact (others e).frame (act_frame moved other)
        | owned c owner lock => exact absurd lock available
    · simp only [here] at moved'
      have different : s.cpu ≠ d.val := by
        cases inv with
        | free lock cpu _ _ => omega
        | owned _ _ lock _ _ => exact (foreign lock).1
      simp only [different, ↓reduceIte, some.injEq] at moved'
      subst moved'
      exact stays _ rfl ⟨clear, .inr (.inl (goto_pc_self ..))⟩

theorem step_inv (safe : (0 : Cpu) ∈ users → users ⊆ {0})
    {label : Cpu × Action} (inv : Inv users s) (step : Step users s label t) : Inv users t := by
  obtain ⟨user, moved⟩ := step
  cases inv with
  | free lock cpu rCount others =>
    exact outside_step user (.free lock cpu rCount others) (others label.1) (by omega) moved
  | owned c owner lock owns others =>
    by_cases self : label.1 = c
    · rw [self] at moved
      exact owner_step owner lock owns others moved
    · -- with CPU 0 among the users there is no second one
      have positive : label.1.val ≠ 0 := by
        intro zero
        have first : label.1 = 0 := Fin.ext zero
        have only := safe (first ▸ user)
        exact self (first.trans (only owner).symm)
      have foreign : s.cpu ≠ label.1.val := by
        intro same
        rcases owns.cpu with own | none
        · exact self (Fin.ext (same.symm.trans own))
        · exact positive (same.symm.trans none)
      exact outside_step user (.owned c owner lock owns others) (others _ self)
        (fun _ => ⟨foreign, positive⟩) moved

theorem Inv.exclusive (inv : Inv users s) : Exclusive s := by
  cases inv with
  | free _ _ _ others =>
    have none : ∀ c, ¬ 0 < s.depth c := fun c => by rw [(others c).1]; exact lt_irrefl 0
    exact ⟨fun c _ held => absurd held (none c), fun c _ held => absurd held (none c)⟩
  | owned c _ _ owns others =>
    have only : ∀ d, 0 < s.depth d → d = c := by
      intro d held
      by_contra other
      rw [(others d other).1] at held
      exact lt_irrefl 0 held
    refine ⟨fun d e left right => (only d left).trans (only e right).symm, ?_⟩
    intro d at_idle held
    obtain rfl := only d held
    simp only [Owns, at_idle] at owns
    exact owns.2.2

/-- CPU `c` has swapped the lock and not yet stored its number when CPU 0 compares: 0
stands for no owner and for CPU 0. -/
def mistakenOwner (c : Cpu) : List (Cpu × Action) :=
  [(c, .lock), (c, .go), (0, .lock), (0, .go), (0, .go), (0, .go), (0, .go), (0, .go), (0, .go),
    (c, .go), (c, .go), (c, .go), (c, .go)]

theorem mistakenOwner_holders : ∀ c : Cpu, c ≠ 0 →
    ((mistakenOwner c).foldlM (fun s label => act s label.1 label.2) spinlock_Init).any
      (fun t => decide (0 < t.depth 0) && decide (0 < t.depth c)) = true := by
  decide +kernel

theorem mistakenOwner_runs {c : Cpu} (zero : (0 : Cpu) ∈ users) (user : c ∈ users) (other : c ≠ 0) :
    ∃ t, Run (Step users) spinlock_Init (mistakenOwner c) t ∧ 0 < t.depth 0 ∧ 0 < t.depth c := by
  have moves : ∀ s, ∀ label ∈ mistakenOwner c, ∀ t,
      act s label.1 label.2 = some t → Step users s label t := by
    intro s label member t moved
    refine ⟨?_, moved⟩
    simp only [mistakenOwner, List.mem_cons, List.not_mem_nil, or_false] at member
    rcases member with rfl | rfl | rfl | rfl | rfl | rfl | rfl | rfl | rfl | rfl | rfl | rfl | rfl <;>
      assumption
  obtain ⟨t, ran, held⟩ := Run.of_exec_any moves (mistakenOwner_holders c other)
  rw [Bool.and_eq_true, decide_eq_true_eq, decide_eq_true_eq] at held
  exact ⟨t, ran, held⟩

/-- The lock excludes the CPUs that use it from each other, in every interleaving, exactly
when CPU 0 does not share it. -/
theorem recursive_spinlock_exclusion (users : Set Cpu) :
    (∀ labels t, Run (Step users) spinlock_Init labels t → Exclusive t) ↔
      ((0 : Cpu) ∈ users → users ⊆ {0}) := by
  constructor
  · intro exclusive zero c user
    by_contra other
    obtain ⟨t, ran, first, second⟩ := mistakenOwner_runs zero user other
    exact other ((exclusive _ t ran).single c 0 second first)
  · intro safe labels t ran
    have start : Inv users spinlock_Init := .free rfl rfl rfl (fun _ => ⟨rfl, .inl rfl⟩)
    exact (ran.invariant (Inv users) (fun _ _ _ inv step => step_inv safe inv step) start).exclusive

/-- CPU 0 and CPU 1 both hold the lock. -/
theorem spinlock_held_twice :
    ∃ labels t, Run (Step Set.univ) spinlock_Init labels t ∧ ¬ Exclusive t := by
  obtain ⟨t, ran, first, second⟩ :=
    mistakenOwner_runs (Set.mem_univ _) (Set.mem_univ (1 : Cpu)) (by decide)
  refine ⟨_, t, ran, ?_⟩
  intro exclusive
  exact absurd (exclusive.single 1 0 second first) (by decide)

end BoringOs.Spinlock
