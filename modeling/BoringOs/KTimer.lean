import BoringOs.Errno
import BoringOs.Lib.Runs
import Mathlib.Data.List.Nodup
import Mathlib.Data.List.Count

/-! The timer wheel of `sys/kern/ktimer.c`. Every operation holds `timerLock` and is one step;
`none` is a failed `ASSERT`. The state also logs the callbacks that ran, the wheel references that
were dropped and the events that were freed, and knows which creators still have their reference. -/

namespace BoringOs.KTimer

open Runs Function List Option

def TIMER_WHEEL_LENGTH : Nat := 256

abbrev EventId : Type := Nat

/-- `KTimerEvent`. The callback is known by what it does to the event: one like
`ThreadWakeupHelper` releases the creator's reference. -/
structure KTimerEvent where
  refCount : Nat
  timeout : Nat
  cbReleases : Bool

structure State where
  timerHead : Nat
  timerNow : Nat
  timerSlot : Nat → List EventId
  event : EventId → KTimerEvent
  /-- The events handed out by `KTimerEvent_Alloc` so far are those below. -/
  allocated : Nat
  held : EventId → Bool
  fired : List EventId
  dropped : List EventId
  freed : List EventId

def ktimer_Init (epoch : Nat) : State :=
  ⟨0, epoch, fun _ => [], fun _ => ⟨0, 0, false⟩, 0, fun _ => false, [], [], []⟩

def ktimer_Create (timeout : Nat) (cbReleases : Bool) (s : State) : State :=
  let evt := s.allocated
  let slot := add64 (add64 s.timerHead timeout) (TIMER_WHEEL_LENGTH - 1) % TIMER_WHEEL_LENGTH
  { s with
    event := Function.update s.event evt ⟨2, add64 s.timerNow timeout, cbReleases⟩
    timerSlot := Function.update s.timerSlot slot (evt :: s.timerSlot slot)
    held := Function.update s.held evt true
    allocated := s.allocated + 1 }

def ktimer_Release (evt : EventId) (s : State) : Option State :=
  let refCount := (s.event evt).refCount
  if refCount = 0 then none
  else
    some { s with
      event := Function.update s.event evt { s.event evt with refCount := refCount - 1 }
      freed := if refCount = 1 then s.freed ++ [evt] else s.freed }

/-- `LIST_REMOVE` and the release of the wheel's reference. -/
def dropWheel (evt : EventId) (s : State) : Option State :=
  ktimer_Release evt { s with
    timerSlot := fun i => (s.timerSlot i).erase evt
    dropped := s.dropped ++ [evt] }

def ktimer_Cancel (evt : EventId) (s : State) : Option State := dropWheel evt s

def creatorRelease (evt : EventId) (s : State) : Option State :=
  ktimer_Release evt { s with held := Function.update s.held evt false }

/-- `(it->cb)(it->arg)`. -/
def callback (it : EventId) (s : State) : Option State :=
  let s := { s with fired := s.fired ++ [it] }
  if (s.event it).cbReleases then creatorRelease it s else some s

/-- The body of the inner loop of `KTimer_Process`. -/
def dispatch (now : Nat) (s : State) (it : EventId) : Option State :=
  if (s.event it).timeout ≤ now then (callback it s).bind (dropWheel it) else some s

def State.rotate (s : State) : State :=
  { s with timerNow := s.timerNow + 1, timerHead := (s.timerHead + 1) % TIMER_WHEEL_LENGTH }

/-- The outer loop of `KTimer_Process`, for a number of slots. -/
def processLoop (now : Nat) : Nat → State → Option State
  | 0, s => some s
  | rounds + 1, s =>
    ((s.timerSlot s.timerHead).foldlM (dispatch now) s).bind (fun s =>
      processLoop now rounds s.rotate)

def ktimer_Process (now : Nat) (s : State) : Option State := processLoop now (now - s.timerNow) s

inductive Op where
  | create (timeout : Nat) (cbReleases : Bool)
  | cancel (evt : EventId)
  | process (now : Nat)
  | release (evt : EventId)
  deriving DecidableEq

def Pending (s : State) (evt : EventId) : Prop := ∃ i, evt ∈ s.timerSlot i

def apply (s : State) : Op → Option State
  | .create timeout cbReleases => some (ktimer_Create timeout cbReleases s)
  | .cancel evt => ktimer_Cancel evt s
  | .process now => ktimer_Process now s
  | .release evt => creatorRelease evt s

/-- When an operation may be called. A creator releases its reference once, and leaves it
to a callback that does so. -/
def Allowed (s : State) : Op → Prop
  | .create timeout _ => 1 ≤ timeout ∧ s.timerNow + timeout < word64
  | .cancel evt => Pending s evt
  | .process _ => True
  | .release evt => evt < s.allocated ∧ s.held evt = true ∧
      ((s.event evt).cbReleases = true → ¬ Pending s evt)

def Step (s : State) (op : Op) (t : State) : Prop := Allowed s op ∧ apply s op = some t

/-- What an event is for: it waits until it is cancelled, or until the clock is read at
or after its deadline. -/
inductive Life where
  | waiting
  | fired
  | cancelled
  deriving DecidableEq

def Life.next (evt : EventId) (deadline : Nat) : Life → Op → Life
  | .waiting, .process now => if deadline ≤ now then .fired else .waiting
  | .waiting, .cancel other => if other = evt then .cancelled else .waiting
  | life, _ => life

def life (evt : EventId) (deadline : Nat) (ops : List Op) : Life :=
  ops.foldl (Life.next evt deadline) .waiting

/-- The wheel and the reference counts. An event is in the slot that is reached when the
clock moves on to its deadline. -/
structure Inv (s : State) : Prop where
  head : s.timerHead < TIMER_WHEEL_LENGTH
  place : ∀ i evt, evt ∈ s.timerSlot i → s.timerNow < (s.event evt).timeout ∧
    (s.timerHead + ((s.event evt).timeout - 1 - s.timerNow)) % TIMER_WHEEL_LENGTH = i
  distinct : ∀ i, (s.timerSlot i).Nodup
  known : ∀ evt, Pending s evt → evt < s.allocated
  waiting : ∀ evt, Pending s evt →
    (s.event evt).refCount = 1 + (s.held evt).toNat ∧ s.dropped.count evt = 0 ∧
      s.freed.count evt = 0
  removed : ∀ evt < s.allocated, ¬ Pending s evt →
    (s.event evt).refCount = (s.held evt).toNat ∧ s.dropped.count evt = 1 ∧
      s.freed.count evt = 1 - (s.held evt).toNat
  fresh : ∀ evt, s.allocated ≤ evt →
    s.fired.count evt = 0 ∧ s.dropped.count evt = 0 ∧ s.freed.count evt = 0

def Owned (s : State) : Prop :=
  ∀ evt, Pending s evt → (s.event evt).cbReleases = true → s.held evt = true

section

variable {s : State} {evt : EventId}

theorem pending_erase (evt : EventId) (distinct : ∀ i, (s.timerSlot i).Nodup) (x : EventId) :
    (∃ i, x ∈ (s.timerSlot i).erase evt) ↔ Pending s x ∧ x ≠ evt := by
  constructor
  · rintro ⟨i, member⟩
    have both := (distinct i).mem_erase_iff.mp member
    exact ⟨⟨i, both.2⟩, both.1⟩
  · rintro ⟨⟨i, member⟩, other⟩
    exact ⟨i, (distinct i).mem_erase_iff.mpr ⟨other, member⟩⟩

theorem ktimer_Release_releases (counted : (s.event evt).refCount ≠ 0) :
    ∃ event freed, ktimer_Release evt s = some { s with event := event, freed := freed } ∧
      (∀ x, (event x).timeout = (s.event x).timeout ∧
        (event x).cbReleases = (s.event x).cbReleases) ∧
      ∀ x, (event x).refCount = (s.event x).refCount - (if x = evt then 1 else 0) ∧
        freed.count x = s.freed.count x + if x = evt ∧ (s.event x).refCount = 1 then 1 else 0 := by
  refine ⟨_, _, if_neg counted, fun x => ?_, fun x => ?_⟩
  · by_cases same : x = evt
    · subst same
      simp
    · simp [update_of_ne same]
  · by_cases same : x = evt
    · subst same
      refine ⟨by simp, ?_⟩
      split <;> simp [*]
    · refine ⟨by simp [same], ?_⟩
      split <;> simp [count_append, same, Ne.symm same]

theorem dropWheel_drops (inv : Inv s) (pending : Pending s evt) :
    ∃ t, dropWheel evt s = some t ∧ Inv t ∧ t.timerNow = s.timerNow ∧ t.timerHead = s.timerHead ∧
      t.allocated = s.allocated ∧ t.held = s.held ∧ t.fired = s.fired ∧
      (∀ x, (t.event x).timeout = (s.event x).timeout ∧
        (t.event x).cbReleases = (s.event x).cbReleases) ∧
      ∀ x, Pending t x ↔ Pending s x ∧ x ≠ evt := by
  obtain ⟨count, undropped, unfreed⟩ := inv.waiting evt pending
  have left := pending_erase evt inv.distinct
  have counted : (s.event evt).refCount ≠ 0 := by omega
  obtain ⟨event, freed, released, fields, counts⟩ := ktimer_Release_releases (s := { s with
    timerSlot := fun i => (s.timerSlot i).erase evt
    dropped := s.dropped ++ [evt] }) counted
  refine ⟨_, released, ?_, rfl, rfl, rfl, rfl, rfl, fields, left⟩
  constructor
  · exact inv.head
  · intro i x member
    simpa [(fields x).1] using inv.place i x (mem_of_mem_erase member)
  · exact fun i => (inv.distinct i).erase evt
  · exact fun x still => inv.known x ((left x).mp still).1
  · intro x still
    obtain ⟨was, other⟩ := (left x).mp still
    simpa [counts x, count_append, other, Ne.symm other] using inv.waiting x was
  · intro x bound gone
    by_cases same : x = evt
    · subst same
      cases held : s.held x <;> simp [counts x, count_append, count, held, undropped, unfreed]
    · have absent : ¬ Pending s x := fun was => gone ((left x).mpr ⟨was, same⟩)
      simpa [counts x, count_append, same, Ne.symm same] using inv.removed x bound absent
  · intro x beyond
    have apart : evt ≠ x := ne_of_lt (lt_of_lt_of_le (inv.known evt pending) beyond)
    simpa [counts x, count_append, apart, apart.symm] using inv.fresh x beyond

theorem creatorRelease_drops (inv : Inv s) (bound : evt < s.allocated) (held : s.held evt = true) :
    ∃ t, creatorRelease evt s = some t ∧ Inv t ∧ t.timerNow = s.timerNow ∧
      t.timerHead = s.timerHead ∧ t.timerSlot = s.timerSlot ∧ t.allocated = s.allocated ∧
      t.held = update s.held evt false ∧ t.fired = s.fired ∧
      ∀ x, (t.event x).timeout = (s.event x).timeout ∧
        (t.event x).cbReleases = (s.event x).cbReleases := by
  have counted : (s.event evt).refCount ≠ 0 := by
    by_cases pending : Pending s evt
    · have := (inv.waiting evt pending).1
      omega
    · have := (inv.removed evt bound pending).1
      rw [held] at this
      exact fun zero => absurd (this.symm.trans zero) (by decide)
  obtain ⟨event, freed, released, fields, counts⟩ := ktimer_Release_releases
    (s := { s with held := update s.held evt false }) counted
  refine ⟨_, released, ?_, rfl, rfl, rfl, rfl, rfl, rfl, fields⟩
  constructor
  · exact inv.head
  · intro i x member
    simpa [(fields x).1] using inv.place i x member
  · exact inv.distinct
  · exact inv.known
  · intro x still
    have before := inv.waiting x still
    by_cases same : x = evt
    · subst same
      rw [held] at before
      simp [counts x, before]
    · simpa [counts x, same] using before
  · intro x known gone
    have before := inv.removed x known gone
    by_cases same : x = evt
    · subst same
      rw [held] at before
      simpa [counts x, before.1] using before.2
    · simpa [counts x, same] using before
  · intro x beyond
    have apart : x ≠ evt := ne_of_gt (lt_of_lt_of_le bound beyond)
    simpa [counts x, apart] using inv.fresh x beyond

end

variable {s t : State} {now deadline : Nat} {evt : EventId} {op : Op} {ops : List Op}

/-- What `KTimer_Process` at `now` may have done on the way from `s` to `t`: every event
that left the wheel was due, and its callback ran once. -/
structure Advances (now : Nat) (s t : State) : Prop where
  inv : Inv t
  owned : Owned t
  allocated : t.allocated = s.allocated
  timeouts : ∀ x, (t.event x).timeout = (s.event x).timeout
  shrinks : ∀ x, Pending t x → Pending s x
  due : ∀ x, Pending s x → ¬ Pending t x →
    (s.event x).timeout ≤ now ∧ t.fired.count x = s.fired.count x + 1
  same : ∀ x, (Pending s x → Pending t x) → t.fired.count x = s.fired.count x

theorem Advances.refl (inv : Inv s) (owned : Owned s) : Advances now s s :=
  ⟨inv, owned, rfl, fun _ => rfl, fun _ pending => pending,
    fun _ pending gone => absurd pending gone, fun _ _ => rfl⟩

theorem Advances.trans {s t u : State} (first : Advances now s t)
    (second : Advances now t u) : Advances now s u where
  inv := second.inv
  owned := second.owned
  allocated := second.allocated.trans first.allocated
  timeouts x := (second.timeouts x).trans (first.timeouts x)
  shrinks x pending := first.shrinks x (second.shrinks x pending)
  due x pending gone := by
    by_cases middle : Pending t x
    · obtain ⟨late, counted⟩ := second.due x middle gone
      rw [first.timeouts] at late
      rw [counted, first.same x (fun _ => middle)]
      exact ⟨late, rfl⟩
    · obtain ⟨late, counted⟩ := first.due x pending middle
      rw [second.same x (fun still => absurd still middle)]
      exact ⟨late, counted⟩
  same x kept := by
    have early : Pending s x → Pending t x := fun pending => second.shrinks x (kept pending)
    have later : Pending t x → Pending u x := fun pending => kept (first.shrinks x pending)
    rw [second.same x later, first.same x early]

theorem dispatch_advances (now : Nat) {it : EventId} (inv : Inv s) (owned : Owned s)
    (pending : Pending s it) :
    ∃ t, dispatch now s it = some t ∧ Advances now s t ∧ t.timerNow = s.timerNow ∧
      t.timerHead = s.timerHead ∧ (Pending t it → now < (s.event it).timeout) ∧
      ∀ x, x ≠ it → Pending s x → Pending t x := by
  by_cases late : (s.event it).timeout ≤ now
  · -- the callback: the log, and perhaps the creator's reference
    have logged : Inv { s with fired := s.fired ++ [it] } := by
      refine ⟨inv.head, inv.place, inv.distinct, inv.known, inv.waiting, inv.removed, ?_⟩
      intro x beyond
      have apart : it ≠ x := ne_of_lt (lt_of_lt_of_le (inv.known it pending) beyond)
      simpa [count_append, apart] using inv.fresh x beyond
    have called : ∃ u, callback it s = some u ∧ Inv u ∧ u.timerNow = s.timerNow ∧
        u.timerHead = s.timerHead ∧ u.timerSlot = s.timerSlot ∧ u.allocated = s.allocated ∧
        (∀ x, x ≠ it → u.held x = s.held x) ∧ u.fired = s.fired ++ [it] ∧
        ∀ x, (u.event x).timeout = (s.event x).timeout ∧
          (u.event x).cbReleases = (s.event x).cbReleases := by
      unfold callback
      by_cases releases : (s.event it).cbReleases = true
      · obtain ⟨u, ran, after, sameNow, sameHead, slots, allocated, held, fired, fields⟩ :=
          creatorRelease_drops logged (inv.known it pending) (owned it pending releases)
        simp only [releases, ↓reduceIte]
        refine ⟨u, ran, after, sameNow, sameHead, slots, allocated, ?_, fired, fields⟩
        intro x other
        rw [held]
        exact update_of_ne other ..
      · simp only [releases, Bool.false_eq_true, ↓reduceIte]
        exact ⟨_, rfl, logged, rfl, rfl, rfl, rfl, fun _ _ => rfl, rfl, fun _ => ⟨rfl, rfl⟩⟩
    obtain ⟨u, ran, after, sameNow, sameHead, slots, allocated, held, fired, fields⟩ := called
    have wheel : ∀ x, Pending u x ↔ Pending s x := fun x => by unfold Pending; rw [slots]
    obtain ⟨t, dropped, done, tNow, tHead, tAllocated, tHeld, tFired, tFields, left⟩ :=
      dropWheel_drops after ((wheel it).mpr pending)
    have remaining : ∀ x, Pending t x ↔ Pending s x ∧ x ≠ it := fun x => by rw [left, wheel]
    have total : t.fired = s.fired ++ [it] := tFired.trans fired
    refine ⟨t, ?_, ⟨done, ?_, tAllocated.trans allocated, ?_, ?_, ?_, ?_⟩, tNow.trans sameNow,
      tHead.trans sameHead, ?_, ?_⟩
    · rw [dispatch, if_pos late, ran]
      exact dropped
    · intro x still releases
      obtain ⟨was, other⟩ := (remaining x).mp still
      rw [(tFields x).2, (fields x).2] at releases
      rw [tHeld, held x other]
      exact owned x was releases
    · exact fun x => (tFields x).1.trans (fields x).1
    · exact fun x still => ((remaining x).mp still).1
    · intro x was gone
      have self : x = it := by
        by_contra other
        exact gone ((remaining x).mpr ⟨was, other⟩)
      subst self
      exact ⟨late, by simp [total, count_append]⟩
    · intro x kept
      have apart : it ≠ x := by
        rintro rfl
        exact ((remaining it).mp (kept pending)).2 rfl
      simp [total, count_append, apart]
    · exact fun still => absurd rfl ((remaining it).mp still).2
    · exact fun x other was => (remaining x).mpr ⟨was, other⟩
  · exact ⟨s, if_neg late, .refl inv owned, rfl, rfl, fun _ => Nat.lt_of_not_le late,
      fun _ _ was => was⟩

theorem slot_advances (now : Nat) (items : List EventId) (inv : Inv s) (owned : Owned s)
    (distinct : items.Nodup) (pending : ∀ x ∈ items, Pending s x) :
    ∃ t, items.foldlM (dispatch now) s = some t ∧ Advances now s t ∧ t.timerNow = s.timerNow ∧
      t.timerHead = s.timerHead ∧ ∀ x ∈ items, Pending t x → now < (s.event x).timeout := by
  induction items generalizing s with
  | nil => exact ⟨s, rfl, .refl inv owned, rfl, rfl, by simp⟩
  | cons it rest ih =>
    obtain ⟨new, others⟩ := nodup_cons.mp distinct
    obtain ⟨u, first, advanced, sameNow, sameHead, handled, kept⟩ :=
      dispatch_advances now inv owned (pending it mem_cons_self)
    have queued : ∀ x ∈ rest, Pending u x := by
      intro x member
      apply kept x
      · rintro rfl
        exact new member
      · exact pending x (mem_cons_of_mem _ member)
    obtain ⟨t, ran, more, tNow, tHead, late⟩ := ih advanced.inv advanced.owned others queued
    refine ⟨t, ?_, advanced.trans more, tNow.trans sameNow, tHead.trans sameHead, ?_⟩
    · rw [foldlM_cons, first]
      exact ran
    · intro x member still
      rcases mem_cons.mp member with rfl | inside
      · exact handled (more.shrinks x still)
      · rw [← advanced.timeouts]
        exact late x inside still

theorem rotate_advances (inv : Inv s) (owned : Owned s) (more : s.timerNow < now)
    (clear : ∀ x ∈ s.timerSlot s.timerHead, now < (s.event x).timeout) :
    Advances now s s.rotate := by
  refine ⟨⟨Nat.mod_lt _ (by decide), ?_, inv.distinct, inv.known, inv.waiting, inv.removed,
    inv.fresh⟩, owned, rfl, fun _ => rfl, fun _ pending => pending,
    fun _ pending gone => absurd pending gone, fun _ _ => rfl⟩
  intro i x member
  obtain ⟨early, slot⟩ := inv.place i x member
  have later : s.timerNow + 1 < (s.event x).timeout := by
    by_contra next
    -- an event of the next second sits in the slot at the head
    have zero : (s.event x).timeout - 1 - s.timerNow = 0 := by omega
    rw [zero, add_zero, Nat.mod_eq_of_lt inv.head] at slot
    have due := clear x (slot ▸ member)
    omega
  refine ⟨later, ?_⟩
  rw [← slot]
  dsimp only [State.rotate, TIMER_WHEEL_LENGTH]
  omega

theorem processLoop_advances (now rounds : Nat) (inv : Inv s) (owned : Owned s)
    (reached : s.timerNow + rounds = now) :
    ∃ t, processLoop now rounds s = some t ∧ Advances now s t ∧ t.timerNow = now := by
  induction rounds generalizing s with
  | zero => exact ⟨s, rfl, .refl inv owned, reached⟩
  | succ rounds ih =>
    obtain ⟨u, ran, advanced, sameNow, sameHead, late⟩ := slot_advances now
      (s.timerSlot s.timerHead) inv owned (inv.distinct _) (fun x member => ⟨_, member⟩)
    have clear : ∀ x ∈ u.timerSlot u.timerHead, now < (u.event x).timeout := by
      intro x member
      -- what is left at the head was there before
      obtain ⟨i, before⟩ := advanced.shrinks x ⟨_, member⟩
      have slotBefore := (inv.place i x before).2
      have slotAfter := (advanced.inv.place _ x member).2
      rw [advanced.timeouts, sameNow, sameHead, slotBefore] at slotAfter
      rw [advanced.timeouts]
      exact late x (slotAfter ▸ before) ⟨_, member⟩
    have moved := rotate_advances advanced.inv advanced.owned (by omega) clear
    obtain ⟨t, rest, more, finished⟩ := ih moved.inv moved.owned (by dsimp only [State.rotate]; omega)
    refine ⟨t, ?_, (advanced.trans moved).trans more, finished⟩
    rw [processLoop, ran]
    exact rest

theorem ktimer_Process_advances (now : Nat) (inv : Inv s) (owned : Owned s) :
    ∃ t, ktimer_Process now s = some t ∧ Advances now s t ∧
      ∀ x, Pending t x → now < (s.event x).timeout := by
  by_cases more : s.timerNow ≤ now
  · obtain ⟨t, ran, advanced, finished⟩ :=
      processLoop_advances now (now - s.timerNow) inv owned (by omega)
    refine ⟨t, ran, advanced, ?_⟩
    rintro x ⟨i, member⟩
    rw [← advanced.timeouts, ← finished]
    exact (advanced.inv.place i x member).1
  · have none : now - s.timerNow = 0 := by omega
    refine ⟨s, ?_, .refl inv owned, ?_⟩
    · rw [ktimer_Process, none]
      rfl
    · rintro x ⟨i, member⟩
      have early := (inv.place i x member).1
      omega

theorem mem_insert_slot {slots : Nat → List EventId} {slot i : Nat} {evt x : EventId} :
    x ∈ update slots slot (evt :: slots slot) i ↔ x ∈ slots i ∨ i = slot ∧ x = evt := by
  by_cases here : i = slot
  · subst here
    rw [update_self, mem_cons]
    tauto
  · rw [update_of_ne here]
    tauto

theorem ktimer_Create_inv (inv : Inv s) (owned : Owned s) {timeout : Nat}
    (cbReleases : Bool) (some_time : 1 ≤ timeout) (fits : s.timerNow + timeout < word64) :
    let t := ktimer_Create timeout cbReleases s
    Inv t ∧ Owned t ∧ (t.event s.allocated).timeout = s.timerNow + timeout ∧
      (∀ x, x ≠ s.allocated → t.event x = s.event x) ∧
      ∀ x, Pending t x ↔ Pending s x ∨ x = s.allocated := by
  intro t
  have deadline : add64 s.timerNow timeout = s.timerNow + timeout := add64_of_lt fits
  have absent : ∀ i, s.allocated ∉ s.timerSlot i :=
    fun i member => lt_irrefl _ (inv.known _ ⟨i, member⟩)
  have older : ∀ x, Pending s x → x ≠ s.allocated :=
    fun x was => ne_of_lt (inv.known x was)
  have pending : ∀ x, Pending t x ↔ Pending s x ∨ x = s.allocated := by
    intro x
    constructor
    · rintro ⟨i, member⟩
      rcases mem_insert_slot.mp member with was | ⟨_, new⟩
      · exact .inl ⟨i, was⟩
      · exact .inr new
    · rintro (⟨i, was⟩ | new)
      · exact ⟨i, mem_insert_slot.mpr (.inl was)⟩
      · exact ⟨_, mem_insert_slot.mpr (.inr ⟨rfl, new⟩)⟩
  have event : ∀ x, x ≠ s.allocated → t.event x = s.event x :=
    fun x other => update_of_ne other ..
  have held : ∀ x, x ≠ s.allocated → t.held x = s.held x :=
    fun x other => update_of_ne other ..
  have newEvent : t.event s.allocated = ⟨2, s.timerNow + timeout, cbReleases⟩ := by
    rw [← deadline]
    exact update_self ..
  have newHeld : t.held s.allocated = true := update_self ..
  refine ⟨⟨inv.head, ?_, ?_, ?_, ?_, ?_, ?_⟩, ?_, by rw [newEvent], event, pending⟩
  · intro i x member
    rcases mem_insert_slot.mp member with was | ⟨here, rfl⟩
    · rw [event x (older x ⟨i, was⟩)]
      exact inv.place i x was
    · rw [newEvent, here]
      change s.timerNow < s.timerNow + timeout ∧
        (s.timerHead + (s.timerNow + timeout - 1 - s.timerNow)) % TIMER_WHEEL_LENGTH = _
      refine ⟨by omega, ?_⟩
      unfold add64 word64 TIMER_WHEEL_LENGTH
      omega
  · intro i
    by_cases here : i = add64 (add64 s.timerHead timeout) (TIMER_WHEEL_LENGTH - 1) % TIMER_WHEEL_LENGTH
    · rw [here]
      change (update s.timerSlot _ _ _).Nodup
      rw [update_self]
      exact nodup_cons.mpr ⟨absent _, inv.distinct _⟩
    · change (update s.timerSlot _ _ _).Nodup
      rw [update_of_ne here]
      exact inv.distinct i
  · intro x queued
    rcases (pending x).mp queued with was | rfl
    · exact Nat.lt_succ_of_lt (inv.known x was)
    · exact Nat.lt_succ_self _
  · intro x queued
    rcases (pending x).mp queued with was | rfl
    · rw [event x (older x was), held x (older x was)]
      exact inv.waiting x was
    · rw [newEvent, newHeld]
      exact ⟨rfl, (inv.fresh _ le_rfl).2⟩
  · intro x known gone
    have other : x ≠ s.allocated := fun new => gone ((pending x).mpr (.inr new))
    have was : ¬ Pending s x := fun queued => gone ((pending x).mpr (.inl queued))
    rw [event x other, held x other]
    exact inv.removed x (lt_of_le_of_ne (Nat.le_of_lt_succ known) other) was
  · exact fun x beyond => inv.fresh x (Nat.le_of_succ_le beyond)
  · intro x queued releases
    rcases (pending x).mp queued with was | rfl
    · rw [event x (older x was)] at releases
      rw [held x (older x was)]
      exact owned x was releases
    · exact newHeld

theorem apply_inv (inv : Inv s) (owned : Owned s) (allowed : Allowed s op) :
    ∃ t, apply s op = some t ∧ Inv t ∧ Owned t := by
  cases op with
  | create timeout cbReleases =>
    obtain ⟨after, kept, _⟩ := ktimer_Create_inv inv owned cbReleases allowed.1 allowed.2
    exact ⟨_, rfl, after, kept⟩
  | cancel evt =>
    obtain ⟨t, ran, after, _, _, _, held, _, fields, left⟩ := dropWheel_drops inv allowed
    refine ⟨t, ran, after, ?_⟩
    intro x still releases
    rw [(fields x).2] at releases
    rw [held]
    exact owned x ((left x).mp still).1 releases
  | process now =>
    obtain ⟨t, ran, advanced, _⟩ := ktimer_Process_advances now inv owned
    exact ⟨t, ran, advanced.inv, advanced.owned⟩
  | release evt =>
    obtain ⟨bound, mine, after⟩ := allowed
    obtain ⟨t, ran, kept, _, _, slots, _, held, _, fields⟩ := creatorRelease_drops inv bound mine
    refine ⟨t, ran, kept, ?_⟩
    intro x still releases
    have was : Pending s x := by rwa [Pending, ← slots]
    rw [(fields x).2] at releases
    have other : x ≠ evt := by
      rintro rfl
      exact after releases was
    rw [held, update_of_ne other]
    exact owned x was releases

structure Tracks (s : State) (evt : EventId) (deadline : Nat) (life : Life) : Prop where
  known : evt < s.allocated
  deadline : (s.event evt).timeout = deadline
  waiting : Pending s evt ↔ life = .waiting
  fired : s.fired.count evt = if life = .fired then 1 else 0

theorem step_tracks {life : Life}
    (inv : Inv s) (owned : Owned s) (step : Step s op t) (tracks : Tracks s evt deadline life) :
    Tracks t evt deadline (life.next evt deadline op) := by
  obtain ⟨allowed, applied⟩ := step
  cases op with
  | create timeout cbReleases =>
    obtain rfl := some.inj applied
    obtain ⟨_, _, _, event, pending⟩ := ktimer_Create_inv inv owned cbReleases allowed.1 allowed.2
    have other : evt ≠ s.allocated := ne_of_lt tracks.known
    have same : life.next evt deadline (.create timeout cbReleases) = life := by cases life <;> rfl
    rw [same]
    refine ⟨Nat.lt_succ_of_lt tracks.known, ?_, ?_, tracks.fired⟩
    · rw [event evt other]
      exact tracks.deadline
    · rw [pending, or_iff_left other]
      exact tracks.waiting
  | cancel other =>
    obtain ⟨u, ran, _, _, _, allocated, _, fired, fields, left⟩ := dropWheel_drops inv allowed
    obtain rfl := some.inj (applied.symm.trans ran)
    refine ⟨allocated ▸ tracks.known, (fields evt).1.trans tracks.deadline, ?_, ?_⟩
    · rw [left, tracks.waiting]
      cases life with
      | waiting =>
        by_cases self : other = evt
        · simp [Life.next, self]
        · simp [Life.next, self, Ne.symm self]
      | fired => simp [Life.next]
      | cancelled => simp [Life.next]
    · rw [fired, tracks.fired]
      cases life with
      | waiting => by_cases self : other = evt <;> simp [Life.next, self]
      | fired => rfl
      | cancelled => rfl
  | process now =>
    obtain ⟨u, ran, advanced, late⟩ := ktimer_Process_advances now inv owned
    obtain rfl := some.inj (applied.symm.trans ran)
    have left : Pending t evt ↔ Pending s evt ∧ ¬ deadline ≤ now := by
      constructor
      · intro still
        have := late evt still
        rw [tracks.deadline] at this
        exact ⟨advanced.shrinks evt still, by omega⟩
      · rintro ⟨queued, early⟩
        by_contra gone
        have := (advanced.due evt queued gone).1
        rw [tracks.deadline] at this
        omega
    refine ⟨advanced.allocated ▸ tracks.known, (advanced.timeouts evt).trans tracks.deadline, ?_, ?_⟩
    · rw [left, tracks.waiting]
      cases life <;> simp [Life.next]
    · by_cases fires : Pending s evt ∧ deadline ≤ now
      · have gone : ¬ Pending t evt := fun still => (left.mp still).2 fires.2
        obtain rfl := tracks.waiting.mp fires.1
        have none : s.fired.count evt = 0 := tracks.fired
        simp [Life.next, fires.2, (advanced.due evt fires.1 gone).2, none]
      · rw [advanced.same evt (fun was => left.mpr ⟨was, fun due => fires ⟨was, due⟩⟩), tracks.fired]
        cases life with
        | waiting =>
          have early : ¬ deadline ≤ now := fun due => fires ⟨tracks.waiting.mpr rfl, due⟩
          simp [Life.next, early]
        | _ => rfl
  | release other =>
    obtain ⟨bound, mine, _⟩ := allowed
    obtain ⟨u, ran, _, _, _, slots, allocated, _, fired, fields⟩ := creatorRelease_drops inv bound mine
    obtain rfl := some.inj (applied.symm.trans ran)
    have same : life.next evt deadline (.release other) = life := by cases life <;> rfl
    rw [same]
    refine ⟨allocated ▸ tracks.known, (fields evt).1.trans tracks.deadline, ?_, fired ▸ tracks.fired⟩
    rw [Pending, slots]
    exact tracks.waiting

theorem run_inv (ran : Run Step s ops t) (inv : Inv s) (owned : Owned s) : Inv t ∧ Owned t := by
  refine ran.invariant (fun s => Inv s ∧ Owned s) ?_ ⟨inv, owned⟩
  rintro s op t ⟨inv, owned⟩ ⟨allowed, applied⟩
  obtain ⟨u, ran, after⟩ := apply_inv inv owned allowed
  rw [some.inj (applied.symm.trans ran)]
  exact after

theorem run_tracks (ran : Run Step s ops t) {life : Life} (inv : Inv s) (owned : Owned s)
    (tracks : Tracks s evt deadline life) :
    Tracks t evt deadline (ops.foldl (Life.next evt deadline) life) := by
  induction ran generalizing life with
  | nil s => exact tracks
  | cons step _ ih =>
    obtain ⟨after, kept⟩ := run_inv (.single step) inv owned
    exact ih after kept (step_tracks inv owned step tracks)

theorem ktimer_Init_inv (epoch : Nat) : Inv (ktimer_Init epoch) ∧ Owned (ktimer_Init epoch) := by
  have empty : ∀ evt, ¬ Pending (ktimer_Init epoch) evt := by
    rintro evt ⟨i, member⟩
    exact absurd member not_mem_nil
  refine ⟨⟨(by decide : 0 < TIMER_WHEEL_LENGTH), ?_, fun _ => nodup_nil, ?_, ?_, ?_, ?_⟩, ?_⟩
  · exact fun i evt member => absurd member not_mem_nil
  · exact fun evt pending => absurd pending (empty evt)
  · exact fun evt pending => absurd pending (empty evt)
  · exact fun evt bound => absurd bound (Nat.not_lt_zero evt)
  · exact fun evt _ => ⟨rfl, rfl, rfl⟩
  · exact fun evt pending => absurd pending (empty evt)

/-- After any operations on the wheel, an event's callback has run exactly once if the clock
was read at or after its deadline before the event was cancelled, and not at all otherwise.
The wheel's reference goes with the first of the two, the event with the last reference. -/
theorem ktimer_fires_on_time (epoch : Nat) {front ops : List Op} {a b c : State} {timeout : Nat}
    {cbReleases : Bool} (before : Run Step (ktimer_Init epoch) front a)
    (created : Step a (.create timeout cbReleases) b) (after : Run Step b ops c) :
    let outcome := life a.allocated (a.timerNow + timeout) ops
    c.fired.count a.allocated = (if outcome = .fired then 1 else 0) ∧
    c.dropped.count a.allocated = (if outcome = .waiting then 0 else 1) ∧
    c.freed.count a.allocated =
      (if outcome ≠ .waiting ∧ c.held a.allocated = false then 1 else 0) ∧
    ∀ op, Allowed c op → ∃ d, Step c op d := by
  intro outcome
  obtain ⟨start, startOwned⟩ := ktimer_Init_inv epoch
  obtain ⟨inv, owned⟩ := run_inv before start startOwned
  obtain ⟨⟨some_time, fits⟩, result⟩ := created
  obtain rfl := some.inj result
  obtain ⟨newInv, newOwned, deadline, _, pending⟩ :=
    ktimer_Create_inv inv owned cbReleases some_time fits
  have waiting : Tracks (ktimer_Create timeout cbReleases a) a.allocated (a.timerNow + timeout)
      .waiting := by
    refine ⟨Nat.lt_succ_self _, deadline, ?_, ?_⟩
    · simp [pending]
    · exact (inv.fresh _ le_rfl).1
  obtain ⟨lastInv, lastOwned⟩ := run_inv after newInv newOwned
  have tracks := run_tracks after newInv newOwned waiting
  refine ⟨tracks.fired, ?_, ?_, ?_⟩
  · by_cases still : outcome = .waiting
    · rw [if_pos still]
      exact (lastInv.waiting _ (tracks.waiting.mpr still)).2.1
    · rw [if_neg still]
      exact (lastInv.removed _ tracks.known (fun queued => still (tracks.waiting.mp queued))).2.1
  · by_cases still : outcome = .waiting
    · rw [if_neg (fun both => both.1 still)]
      exact (lastInv.waiting _ (tracks.waiting.mpr still)).2.2
    · rw [(lastInv.removed _ tracks.known (fun queued => still (tracks.waiting.mp queued))).2.2]
      cases c.held a.allocated with
      | true => simp
      | false => simp [still]
  · intro op allowed
    obtain ⟨d, applied, _⟩ := apply_inv lastInv lastOwned allowed
    exact ⟨d, allowed, applied⟩

theorem ktimer_fires_on_time_once :
    ∃ b c, Step (ktimer_Init 7) (.create 3 false) b ∧
      Run Step b [.process 9, .process 12, .process 12] c ∧ c.fired.count 0 = 1 := by
  have created : Step (ktimer_Init 7) (.create 3 false) (ktimer_Create 3 false (ktimer_Init 7)) :=
    ⟨⟨by decide, by decide⟩, rfl⟩
  have tick : ∀ s now t, ktimer_Process now s = some t → Step s (.process now) t :=
    fun _ _ _ ran => ⟨trivial, ran⟩
  obtain ⟨c, ran⟩ : ∃ c, Run Step (ktimer_Create 3 false (ktimer_Init 7))
      [.process 9, .process 12, .process 12] c :=
    ⟨_, .cons (tick _ 9 _ rfl) (.cons (tick _ 12 _ rfl) (.single (tick _ 12 _ rfl)))⟩
  exact ⟨_, c, created, ran, (ktimer_fires_on_time 7 (.nil _) created ran).1⟩

/-- A second `KTimer_Cancel` of an event that has not fired takes the creator's reference. -/
theorem ktimer_cancelled_twice :
    let s := ktimer_Create 5 false (ktimer_Init 0)
    ∃ t u, ktimer_Cancel 0 s = some t ∧ t.fired = [] ∧ ktimer_Cancel 0 t = some u ∧
      u.dropped.count 0 = 2 ∧ u.freed = [0] ∧ u.held 0 = true ∧ creatorRelease 0 u = none :=
  ⟨_, _, rfl, rfl, rfl, rfl, rfl, rfl, rfl⟩

end BoringOs.KTimer
