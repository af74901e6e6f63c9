import BoringOs.Lib.Runs
import Mathlib.Tactic.IntervalCases

/-! `MP_CrossCall` and `MP_CrossCallTrap` of `sys/amd64/mp.c`, with interrupts that are delivered in
any order and with any delay. `MP_CrossCall` runs with interrupts disabled, so no CPU handles a
cross call while it makes one. `LAPIC_Broadcast` never returns an error because it does not advance
its counter. -/

namespace BoringOs.CrossCall

open Runs Function Option Nat

def MAX_CPUS : Nat := 16

/-- A `CrossCallFrame`. `ran` counts the runs of the callback on each CPU, and `live` says that the
`MP_CrossCall` that has the frame on its stack has not returned. -/
structure Frame where
  count : Nat
  done : Nat → Bool
  ran : Nat → Nat
  live : Bool

/-- The place of a CPU in `MP_CrossCall`. -/
inductive Call where
  /-- Before `LAPIC_Broadcast`. -/
  | posted
  /-- Before the callback on the local CPU. -/
  | sent
  /-- Before the store to `done` of the local CPU. -/
  | ran
  /-- Before the test of `count`. -/
  | waiting
  /-- Before the store of `NULL` to the CPU's slot. -/
  | clearing
  | returning
  deriving DecidableEq

/-- The place of a CPU in one iteration of `MP_CrossCallTrap`. -/
inductive Item where
  /-- Before the read of the slot. -/
  | read
  /-- Before the test of `done`. -/
  | test (frame : Nat)
  | run (frame : Nat)
  | store (frame : Nat)
  | increment (frame : Nat)
  deriving DecidableEq

inductive Phase where
  | idle
  | calling (stage : Call) (frame : Nat)
  | handling (c : Nat) (item : Item)
  deriving DecidableEq

/-- The slots `cpus[c].frame`, the frames of all calls so far, and the interrupts that are on their
way to each CPU. -/
structure State where
  lastCPU : Nat
  phase : Nat → Phase
  slot : Nat → Option Nat
  frames : Nat → Frame
  next : Nat
  pending : Nat → Nat

def newFrame : Frame := { count := 1, done := fun _ => false, ran := fun _ => 0, live := true }

/-- After `MP_Init` with `n` booted CPUs, when `lastCPU` is their number. -/
def initial (n : Nat) : State :=
  { lastCPU := n, phase := fun _ => .idle, slot := fun _ => none, frames := fun _ => newFrame,
    next := 0, pending := fun _ => 0 }

def State.goto (s : State) (cpu : Nat) (phase : Phase) : State :=
  { s with phase := Function.update s.phase cpu phase }

def State.setFrame (s : State) (frame : Nat) (contents : Frame) : State :=
  { s with frames := Function.update s.frames frame contents }

def State.setSlot (s : State) (cpu : Nat) (slot : Option Nat) : State :=
  { s with slot := Function.update s.slot cpu slot }

/-- `LAPIC_Broadcast` to all CPUs but the own one. -/
def State.broadcast (s : State) (cpu : Nat) : State :=
  { s with pending := fun other =>
      if other < s.lastCPU ∧ other ≠ cpu then s.pending other + 1 else s.pending other }

def Frame.run (frame : Frame) (cpu : Nat) : Frame :=
  { frame with ran := Function.update frame.ran cpu (frame.ran cpu + 1) }

def Frame.store (frame : Frame) (cpu : Nat) : Frame :=
  { frame with done := Function.update frame.done cpu true }

def Frame.increment (frame : Frame) : Frame := { frame with count := frame.count + 1 }

/-- The next step of `MP_CrossCall`. -/
def callStep (s : State) (cpu : Nat) (stage : Call) (frame : Nat) : State :=
  match stage with
  | .posted => (s.broadcast cpu).goto cpu (.calling .sent frame)
  | .sent => (s.setFrame frame ((s.frames frame).run cpu)).goto cpu (.calling .ran frame)
  | .ran => (s.setFrame frame ((s.frames frame).store cpu)).goto cpu (.calling .waiting frame)
  | .waiting => if (s.frames frame).count < s.lastCPU then s else s.goto cpu (.calling .clearing frame)
  | .clearing => (s.setSlot cpu none).goto cpu (.calling .returning frame)
  | .returning => (s.setFrame frame { s.frames frame with live := false }).goto cpu .idle

/-- The next step of `MP_CrossCallTrap`, in the iteration for `cpus[c]`. -/
def handlerStep (s : State) (cpu c : Nat) (item : Item) : State :=
  match item with
  | .read =>
    if c ≤ s.lastCPU then
      match s.slot c with
      | none => s.goto cpu (.handling (c + 1) .read)
      | some frame => s.goto cpu (.handling c (.test frame))
    else s.goto cpu .idle
  | .test frame =>
    if (s.frames frame).done cpu then s.goto cpu (.handling (c + 1) .read)
    else s.goto cpu (.handling c (.run frame))
  | .run frame =>
    (s.setFrame frame ((s.frames frame).run cpu)).goto cpu (.handling c (.store frame))
  | .store frame =>
    (s.setFrame frame ((s.frames frame).store cpu)).goto cpu (.handling c (.increment frame))
  | .increment frame =>
    (s.setFrame frame (s.frames frame).increment).goto cpu (.handling (c + 1) .read)

inductive Label where
  /-- `MP_CrossCall` up to the store of the frame to the CPU's slot. -/
  | call (cpu : Nat)
  /-- The delivery of a cross-call interrupt. -/
  | deliver (cpu : Nat)
  | step (cpu : Nat)
  deriving DecidableEq

def Label.cpu : Label → Nat
  | .call cpu | .deliver cpu | .step cpu => cpu

def act (s : State) : Label → Option State
  | .call cpu =>
    match s.phase cpu with
    | .idle =>
      some (({ s with next := s.next + 1 }.setFrame s.next newFrame).setSlot cpu (some s.next)
        |>.goto cpu (.calling .posted s.next))
    | _ => none
  | .deliver cpu =>
    match s.phase cpu, s.pending cpu with
    | .idle, left + 1 =>
      some ({ s with pending := Function.update s.pending cpu left }.goto cpu (.handling 0 .read))
    | _, _ => none
  | .step cpu =>
    match s.phase cpu with
    | .idle => none
    | .calling stage frame => some (callStep s cpu stage frame)
    | .handling c item => some (handlerStep s cpu c item)

def apply (s : State) (label : Label) : Option State :=
  if label.cpu < s.lastCPU then act s label else none

/-- The step reads no slot beyond `cpus`, touches no frame whose `MP_CrossCall` has returned, and
if it returns from `MP_CrossCall`, the callback has run once on every CPU. -/
def Good (s : State) (label : Label) (_ : State) : Prop :=
  match label with
  | .step cpu =>
    match s.phase cpu with
    | .handling c .read => c ≤ s.lastCPU → c < MAX_CPUS
    | .handling _ (.test frame) | .handling _ (.run frame) | .handling _ (.store frame)
    | .handling _ (.increment frame) => (s.frames frame).live = true
    | .calling .returning frame => ∀ other < s.lastCPU, (s.frames frame).ran other = 1
    | _ => True
  | _ => True

instance (s : State) (label : Label) (s' : State) : Decidable (Good s label s') := by
  unfold Good
  split
  · split <;> infer_instance
  · infer_instance

/-! Two CPUs: every interrupt belongs to one call. -/

def Past (caller : Nat) : Phase → Prop
  | .handling c .read => caller < c
  | .handling _ _ => False
  | .idle | .calling _ _ => True

structure Fresh (frame : Frame) (cpu : Nat) : Prop where
  ran : frame.ran cpu = 0
  done : frame.done cpu = false
  count : frame.count = 1

/-- How far the other CPU is with the frame of a call whose interrupt has been sent: its phase and
the interrupts on their way to it. -/
inductive Progress (caller cpu id : Nat) (frame : Frame) : Phase → Nat → Prop where
  | sent {phase : Phase} (past : Past caller phase) (fresh : Fresh frame cpu) :
      Progress caller cpu id frame phase 1
  | scanning {c : Nat} (ahead : c ≤ caller) (fresh : Fresh frame cpu) :
      Progress caller cpu id frame (.handling c .read) 0
  | testing (fresh : Fresh frame cpu) :
      Progress caller cpu id frame (.handling caller (.test id)) 0
  | running (fresh : Fresh frame cpu) :
      Progress caller cpu id frame (.handling caller (.run id)) 0
  | storing (ran : frame.ran cpu = 1) (count : frame.count = 1) :
      Progress caller cpu id frame (.handling caller (.store id)) 0
  | counting (ran : frame.ran cpu = 1) (count : frame.count = 1) :
      Progress caller cpu id frame (.handling caller (.increment id)) 0
  | handled {phase : Phase} (past : Past caller phase) (ran : frame.ran cpu = 1) :
      Progress caller cpu id frame phase 0

def Phase.awaited : Phase → Option Nat
  | .calling .sent id | .calling .ran id | .calling .waiting id => some id
  | _ => none

/-- What the frame of a call records of the other CPU before the interrupt is sent and after the
wait. -/
def Outcome (phase : Phase) (frames : Nat → Frame) (cpu : Nat) : Prop :=
  match phase with
  | .calling .posted id => Fresh (frames id) cpu
  | .calling .clearing id | .calling .returning id => (frames id).ran cpu = 1
  | _ => True

def Link (s : State) (caller cpu : Nat) : Prop :=
  match (s.phase caller).awaited with
  | some id => Progress caller cpu id (s.frames id) (s.phase cpu) (s.pending cpu)
  | none => Past caller (s.phase cpu) ∧ s.pending cpu = 0 ∧ Outcome (s.phase caller) s.frames cpu

def Phase.posting : Phase → Option Nat
  | .calling .returning _ => none
  | .calling _ id => some id
  | .idle | .handling _ _ => none

def Call.ranLocally : Call → Nat
  | .posted | .sent => 0
  | .ran | .waiting | .clearing | .returning => 1

/-- Every call has a frame of its own, in the slot of its CPU until the wait is over. -/
structure Frames (s : State) : Prop where
  absent : ∀ cpu, s.lastCPU ≤ cpu → s.phase cpu = .idle
  slots : ∀ cpu, s.slot cpu = (s.phase cpu).posting
  used : ∀ cpu stage id, s.phase cpu = .calling stage id → id < s.next
  live : ∀ cpu stage id, s.phase cpu = .calling stage id → (s.frames id).live = true
  unique : ∀ one other stage stage' id, s.phase one = .calling stage id →
    s.phase other = .calling stage' id → one = other
  ranLocally : ∀ cpu stage id, s.phase cpu = .calling stage id →
    (s.frames id).ran cpu = stage.ranLocally

structure Inv (s : State) : Prop extends Frames s where
  few : s.lastCPU ≤ 2
  links : ∀ caller < 2, ∀ cpu < s.lastCPU, caller ≠ cpu → Link s caller cpu

variable {cpu id c pending : Nat} {s s' : State} {phase : Phase} {frame : Frame} {item : Item} {stage : Call}

theorem Frames.step (frames : Frames s) (booted : cpu < s.lastCPU)
    (lastCPU : s'.lastCPU = s.lastCPU) (next : s.next ≤ s'.next)
    (others : ∀ other, other ≠ cpu → s'.phase other = s.phase other ∧ s'.slot other = s.slot other)
    (slot : s'.slot cpu = (s'.phase cpu).posting)
    (kept : ∀ other stage id, other ≠ cpu → s.phase other = .calling stage id →
      (s'.frames id).live = (s.frames id).live ∧ (s'.frames id).ran other = (s.frames id).ran other)
    (own : ∀ stage id, s'.phase cpu = .calling stage id → id < s'.next ∧
      (s'.frames id).live = true ∧ (s'.frames id).ran cpu = stage.ranLocally ∧
      ∀ other stage', other ≠ cpu → s.phase other ≠ .calling stage' id) : Frames s' := by
  refine ⟨?_, ?_, ?_, ?_, ?_, ?_⟩
  · intro other beyond
    have away : other ≠ cpu := by omega
    rw [(others other away).1]
    exact frames.absent other (lastCPU ▸ beyond)
  · intro other
    by_cases same : other = cpu
    · rw [same, slot]
    · rw [(others other same).1, (others other same).2, frames.slots]
  · intro other stage id calls
    by_cases same : other = cpu
    · exact (own stage id (same ▸ calls)).1
    · rw [(others other same).1] at calls
      exact lt_of_lt_of_le (frames.used other stage id calls) next
  · intro other stage id calls
    by_cases same : other = cpu
    · exact (own stage id (same ▸ calls)).2.1
    · rw [(others other same).1] at calls
      rw [(kept other stage id same calls).1]
      exact frames.live other stage id calls
  · intro one other stage stage' id first second
    by_cases same : one = cpu
    · by_cases same' : other = cpu
      · rw [same, same']
      · rw [(others other same').1] at second
        exact absurd second ((own stage id (same ▸ first)).2.2.2 other stage' same')
    · rw [(others one same).1] at first
      by_cases same' : other = cpu
      · exact absurd first ((own stage' id (same' ▸ second)).2.2.2 one stage same)
      · rw [(others other same').1] at second
        exact frames.unique one other stage stage' id first second
  · intro other stage id calls
    by_cases same : other = cpu
    · rw [same]
      exact (own stage id (same ▸ calls)).2.2.1
    · rw [(others other same).1] at calls
      rw [(kept other stage id same calls).2]
      exact frames.ranLocally other stage id calls

@[simp] theorem goto_phase (s : State) (cpu : Nat) (phase : Phase) :
    (s.goto cpu phase).phase cpu = phase := update_self ..

theorem goto_phase_of_ne (s : State) {cpu other : Nat} (phase : Phase) (away : other ≠ cpu) :
    (s.goto cpu phase).phase other = s.phase other := update_of_ne away ..

variable {other n id' : Nat} {stage' : Call} {slot : Option Nat} {label : Label}

@[simp] theorem setFrame_frames (s : State) (id : Nat) (frame : Frame) :
    (s.setFrame id frame).frames id = frame := update_self ..

theorem setFrame_frames_of_ne (s : State) (frame : Frame) (away : other ≠ id) :
    (s.setFrame id frame).frames other = s.frames other := update_of_ne away ..

section

variable (frames : Frames s)
include frames

theorem Frames.other_frame {cpu other id id' : Nat}
    (calls : s.phase cpu = .calling stage id) (away : other ≠ cpu)
    (calls' : s.phase other = .calling stage' id') : id' ≠ id := by
  rintro rfl
  exact away (frames.unique other cpu stage' stage id' calls' calls)

theorem Frames.call (booted : cpu < s.lastCPU) :
    Frames ((({ s with next := s.next + 1 }.setFrame s.next newFrame).setSlot cpu
      (some s.next)).goto cpu (.calling .posted s.next)) := by
  have old : ∀ other stage id, s.phase other = .calling stage id → id ≠ s.next := by
    intro other stage id calls same
    have := frames.used other stage id calls
    omega
  refine frames.step booted rfl (le_succ _) ?_ ?_ ?_ ?_
  · intro other away
    exact ⟨goto_phase_of_ne _ _ away, update_of_ne away ..⟩
  · rw [goto_phase]
    exact update_self ..
  · intro other stage id _ calls
    have same := setFrame_frames_of_ne { s with next := s.next + 1 } newFrame (old other stage id calls)
    exact ⟨congrArg Frame.live same, congrArg (fun frame => frame.ran other) same⟩
  · intro stage id calls
    rw [goto_phase] at calls
    cases calls
    have new := setFrame_frames { s with next := s.next + 1 } s.next newFrame
    refine ⟨lt_succ_self _, congrArg Frame.live new, congrArg (fun frame => frame.ran cpu) new, ?_⟩
    intro other stage' _ calls
    exact old other stage' _ calls rfl

theorem Frames.callStep (booted : cpu < s.lastCPU) (calls : s.phase cpu = .calling stage id)
    {pending : Nat → Nat}
    (result : s' = (({ s with pending := pending }.setFrame id frame).setSlot cpu slot).goto cpu
      (.calling stage' id))
    (posted : slot = (Phase.calling stage' id).posting)
    (live : frame.live = (s.frames id).live) (ran : frame.ran cpu = stage'.ranLocally) :
    Frames s' := by
  subst result
  refine frames.step booted rfl le_rfl ?_ ?_ ?_ ?_
  · intro other away
    exact ⟨goto_phase_of_ne _ _ away, update_of_ne away ..⟩
  · rw [goto_phase, ← posted]
    exact update_self ..
  · intro other stage'' id' away calls'
    have same := setFrame_frames_of_ne { s with pending := pending } frame
      (frames.other_frame calls away calls')
    exact ⟨congrArg Frame.live same, congrArg (fun frame => frame.ran other) same⟩
  · intro stage'' id' now
    rw [goto_phase] at now
    cases now
    have new := setFrame_frames { s with pending := pending } id frame
    refine ⟨frames.used cpu stage id calls, ?_, ?_, ?_⟩
    · exact (congrArg Frame.live new).trans (live.trans (frames.live cpu stage id calls))
    · exact (congrArg (fun frame => frame.ran cpu) new).trans ran
    · intro other stage'' away calls'
      exact frames.other_frame calls away calls' rfl

theorem Frames.leave (booted : cpu < s.lastCPU) {pending : Nat → Nat}
    (result : s' = ({ s with pending := pending }.setFrame id frame).goto cpu phase)
    (empty : (s.phase cpu).posting = none) (away : ∀ stage id, phase ≠ .calling stage id)
    (kept : ∀ other stage, other ≠ cpu → s.phase other = .calling stage id →
      frame.live = (s.frames id).live ∧ frame.ran other = (s.frames id).ran other) :
    Frames s' := by
  subst result
  refine frames.step booted rfl le_rfl ?_ ?_ ?_ ?_
  · intro other different
    exact ⟨goto_phase_of_ne _ _ different, rfl⟩
  · have none' : phase.posting = none := by
      cases phase with
      | calling stage id => exact absurd rfl (away stage id)
      | idle => rfl
      | handling c item => rfl
    rw [goto_phase, none', ← empty]
    exact frames.slots cpu
  · intro other stage id' different calls
    by_cases same : id' = id
    · subst same
      have new := setFrame_frames { s with pending := pending } id' frame
      obtain ⟨live, ran⟩ := kept other stage different calls
      exact ⟨(congrArg Frame.live new).trans live,
        (congrArg (fun frame => frame.ran other) new).trans ran⟩
    · have old := setFrame_frames_of_ne { s with pending := pending } frame same
      exact ⟨congrArg Frame.live old, congrArg (fun frame => frame.ran other) old⟩
  · intro stage id' now
    rw [goto_phase] at now
    exact absurd now (away stage id')

end

theorem Progress.agree {caller cpu id pending : Nat} {frame frame' : Frame}
    (ran : frame'.ran cpu = frame.ran cpu) (done : frame'.done cpu = frame.done cpu)
    (count : frame'.count = frame.count) (progress : Progress caller cpu id frame phase pending) :
    Progress caller cpu id frame' phase pending := by
  have still : Fresh frame cpu → Fresh frame' cpu := fun fresh =>
    ⟨ran.trans fresh.ran, done.trans fresh.done, count.trans fresh.count⟩
  cases progress with
  | sent past fresh => exact .sent past (still fresh)
  | scanning ahead fresh => exact .scanning ahead (still fresh)
  | testing fresh => exact .testing (still fresh)
  | running fresh => exact .running (still fresh)
  | storing once one => exact .storing (ran.trans once) (count.trans one)
  | counting once one => exact .counting (ran.trans once) (count.trans one)
  | handled past once => exact .handled past (ran.trans once)

theorem Progress.outside {caller cpu id pending : Nat} {phase phase' : Phase}
    (before : ∀ c item, phase ≠ .handling c item) (after : Past caller phase')
    (progress : Progress caller cpu id frame phase pending) :
    Progress caller cpu id frame phase' pending := by
  cases progress with
  | sent _ fresh => exact .sent after fresh
  | handled _ once => exact .handled after once
  | _ => exact absurd rfl (before _ _)

theorem awaited_calling (awaited : phase.awaited = some id) : ∃ stage, phase = .calling stage id := by
  unfold Phase.awaited at awaited
  split at awaited <;> cases awaited <;> exact ⟨_, rfl⟩

theorem Outcome.congr {frames frames' : Nat → Frame}
    (same : ∀ stage id, phase = .calling stage id → frames' id = frames id)
    (outcome : Outcome phase frames cpu) : Outcome phase frames' cpu := by
  cases phase with
  | calling stage id =>
    have equal := same stage id rfl
    cases stage with
    | posted =>
      show Fresh (frames' id) cpu
      rw [equal]
      exact outcome
    | clearing =>
      show (frames' id).ran cpu = 1
      rw [equal]
      exact outcome
    | returning =>
      show (frames' id).ran cpu = 1
      rw [equal]
      exact outcome
    | _ => trivial
  | _ => trivial

theorem Link.outside {caller cpu : Nat} (link : Link s caller cpu)
    (same : s'.phase caller = s.phase caller)
    (frames : ∀ stage id, s.phase caller = .calling stage id → s'.frames id = s.frames id)
    (pending : s'.pending cpu = s.pending cpu) (before : ∀ c item, s.phase cpu ≠ .handling c item)
    (after : Past caller (s'.phase cpu)) : Link s' caller cpu := by
  unfold Link at *
  rw [same, pending]
  cases awaited : (s.phase caller).awaited with
  | some id =>
    rw [awaited] at link
    obtain ⟨stage, calls⟩ := awaited_calling awaited
    show Progress caller cpu id (s'.frames id) (s'.phase cpu) (s.pending cpu)
    rw [frames stage id calls]
    exact link.outside before after
  | none =>
    rw [awaited] at link
    exact ⟨after, link.2.1, link.2.2.congr frames⟩

theorem link_uncalled {caller cpu : Nat} (uncalled : ∀ stage id, s.phase caller ≠ .calling stage id) :
    Link s caller cpu ↔ Past caller (s.phase cpu) ∧ s.pending cpu = 0 := by
  have none' : (s.phase caller).awaited = none := by
    cases awaited : (s.phase caller).awaited with
    | none => rfl
    | some id =>
      obtain ⟨stage, calls⟩ := awaited_calling awaited
      exact absurd calls (uncalled stage id)
  have outcome : Outcome (s.phase caller) s.frames cpu := by
    cases phase : s.phase caller with
    | calling stage id => exact absurd phase (uncalled stage id)
    | _ => trivial
  unfold Link
  rw [none']
  exact ⟨fun link => ⟨link.1, link.2.1⟩, fun link => ⟨link.1, link.2, outcome⟩⟩

theorem Inv.of_mover (inv : Inv s) (booted : cpu < s.lastCPU)
    (frames : Frames s') (lastCPU : s'.lastCPU = s.lastCPU)
    (asCaller : ∀ other < s.lastCPU, other ≠ cpu → Link s' cpu other)
    (asHandler : ∀ caller < 2, caller ≠ cpu → Link s' caller cpu) : Inv s' where
  toFrames := frames
  few := lastCPU ▸ inv.few
  links := by
    intro caller real other below apart
    have few := inv.few
    rw [lastCPU] at below
    have mover : cpu = caller ∨ cpu = other := by omega
    rcases mover with rfl | rfl
    · exact asCaller other below (Ne.symm apart)
    · exact asHandler caller real apart

theorem Inv.caller (inv : Inv s) (id : Nat) (booted : cpu < s.lastCPU)
    (frames : Frames s') (lastCPU : s'.lastCPU = s.lastCPU)
    (others : ∀ other, other ≠ cpu → s'.phase other = s.phase other)
    (outside : ∀ c item, s.phase cpu ≠ .handling c item)
    (outside' : ∀ c item, s'.phase cpu ≠ .handling c item)
    (kept : ∀ other, other ≠ id → s'.frames other = s.frames other)
    (own : ∀ other stage, other ≠ cpu → s.phase other ≠ .calling stage id)
    (pending : s'.pending cpu = s.pending cpu)
    (asCaller : ∀ other < s.lastCPU, other ≠ cpu → Link s cpu other → Link s' cpu other) :
    Inv s' := by
  have few := inv.few
  refine inv.of_mover booted frames lastCPU ?_ ?_
  · intro other below apart
    exact asCaller other below apart (inv.links cpu (by omega) other below (Ne.symm apart))
  · intro caller real apart
    refine (inv.links caller real cpu booted apart).outside (others caller apart) ?_ pending outside ?_
    · intro stage id' calls
      refine kept id' ?_
      rintro rfl
      exact own caller stage apart calls
    · cases phase : s'.phase cpu with
      | handling c item => exact absurd phase (outside' c item)
      | _ => trivial

theorem Inv.call (inv : Inv s) (booted : cpu < s.lastCPU) (idle : s.phase cpu = .idle) :
    Inv ((({ s with next := s.next + 1 }.setFrame s.next newFrame).setSlot cpu
      (some s.next)).goto cpu (.calling .posted s.next)) := by
  refine inv.caller s.next booted (inv.toFrames.call booted) rfl
    (fun other => goto_phase_of_ne _ _) ?_ ?_ ?_ ?_ rfl ?_
  · intro c item handles
    rw [idle] at handles
    cases handles
  · intro c item handles
    rw [goto_phase] at handles
    cases handles
  · intro other away
    exact setFrame_frames_of_ne { s with next := s.next + 1 } newFrame away
  · intro other stage _ calls
    exact lt_irrefl _ (inv.used other stage _ calls)
  · intro other _ apart link
    have quiet := (link_uncalled (by simp [idle])).mp link
    unfold Link
    rw [goto_phase, goto_phase_of_ne _ _ apart]
    refine ⟨quiet.1, quiet.2, ?_⟩
    show Fresh (update s.frames s.next newFrame s.next) other
    rw [update_self]
    exact ⟨rfl, rfl, rfl⟩

theorem Inv.callStep (inv : Inv s) (booted : cpu < s.lastCPU)
    (calls : s.phase cpu = .calling stage id) (stage' : Call) (frame : Frame)
    (slot : Option Nat) (pending : Nat → Nat)
    (result : s' = (({ s with pending := pending }.setFrame id frame).setSlot cpu slot).goto cpu
      (.calling stage' id))
    (posted : slot = (Phase.calling stage' id).posting)
    (live : frame.live = (s.frames id).live) (ran : frame.ran cpu = stage'.ranLocally)
    (self : pending cpu = s.pending cpu)
    (asCaller : ∀ other < s.lastCPU, other ≠ cpu → Link s cpu other → Link s' cpu other) :
    Inv s' := by
  have frames := inv.toFrames.callStep booted calls result posted live ran
  subst result
  refine inv.caller id booted frames rfl (fun other => goto_phase_of_ne _ _) ?_ ?_ ?_ ?_ self
    asCaller
  · simp [calls]
  · simp
  · intro other away
    exact setFrame_frames_of_ne { s with pending := pending } frame away
  · intro other stage'' apart calls'
    exact inv.other_frame calls apart calls' rfl

theorem setFrame_same (s : State) (id : Nat) : s.setFrame id (s.frames id) = s := by
  rw [State.setFrame, update_eq_self]

theorem setSlot_same (same : s.slot cpu = slot) : s.setSlot cpu slot = s := by
  rw [State.setSlot, ← same, update_eq_self]

theorem Inv.callStep_posted (inv : Inv s) (booted : cpu < s.lastCPU)
    (calls : s.phase cpu = .calling .posted id) :
    Inv ((s.broadcast cpu).goto cpu (.calling .sent id)) := by
  have slot : s.slot cpu = some id := by rw [inv.slots, calls]; rfl
  refine inv.callStep booted calls .sent (s.frames id) (some id)
    (s.broadcast cpu).pending ?_ rfl rfl (inv.ranLocally cpu .posted id calls) ?_ ?_
  · show _ = ((State.setFrame (s.broadcast cpu) id ((s.broadcast cpu).frames id)).setSlot cpu _).goto _ _
    rw [setFrame_same, setSlot_same (s := s.broadcast cpu) slot]
  · show (if cpu < s.lastCPU ∧ cpu ≠ cpu then _ else _) = _
    rw [if_neg (fun both => both.2 rfl)]
  · intro other below apart link
    unfold Link at *
    rw [calls] at link
    rw [goto_phase, goto_phase_of_ne _ _ apart]
    obtain ⟨past, none', fresh⟩ := link
    have raised : (s.broadcast cpu).pending other = 1 := by
      show (if other < s.lastCPU ∧ other ≠ cpu then _ else _) = _
      rw [if_pos ⟨below, apart⟩, none']
    show Progress cpu other id (s.frames id) (s.phase other) ((s.broadcast cpu).pending other)
    rw [raised]
    exact .sent past fresh

theorem Inv.callStep_sent (inv : Inv s) (booted : cpu < s.lastCPU)
    (calls : s.phase cpu = .calling .sent id) :
    Inv ((s.setFrame id ((s.frames id).run cpu)).goto cpu (.calling .ran id)) := by
  have slot : s.slot cpu = some id := by rw [inv.slots, calls]; rfl
  refine inv.callStep booted calls .ran ((s.frames id).run cpu) (some id)
    s.pending ?_ rfl rfl ?_ rfl ?_
  · show _ = ((s.setFrame id ((s.frames id).run cpu)).setSlot cpu _).goto _ _
    rw [setSlot_same (s := s.setFrame id _) slot]
  · show update (s.frames id).ran cpu ((s.frames id).ran cpu + 1) cpu = 1
    rw [update_self, inv.ranLocally cpu _ id calls]
    rfl
  · intro other below apart link
    unfold Link at *
    rw [calls] at link
    rw [goto_phase, goto_phase_of_ne _ _ apart]
    show Progress cpu other id ((s.setFrame id ((s.frames id).run cpu)).frames id) (s.phase other)
      (s.pending other)
    rw [setFrame_frames]
    exact link.agree (update_of_ne apart ..) rfl rfl

theorem Inv.callStep_ran (inv : Inv s) (booted : cpu < s.lastCPU)
    (calls : s.phase cpu = .calling .ran id) :
    Inv ((s.setFrame id ((s.frames id).store cpu)).goto cpu (.calling .waiting id)) := by
  have slot : s.slot cpu = some id := by rw [inv.slots, calls]; rfl
  refine inv.callStep booted calls .waiting ((s.frames id).store cpu) (some id)
    s.pending ?_ rfl rfl (inv.ranLocally cpu .ran id calls) rfl ?_
  · show _ = ((s.setFrame id ((s.frames id).store cpu)).setSlot cpu _).goto _ _
    rw [setSlot_same (s := s.setFrame id _) slot]
  · intro other below apart link
    unfold Link at *
    rw [calls] at link
    rw [goto_phase, goto_phase_of_ne _ _ apart]
    show Progress cpu other id ((s.setFrame id ((s.frames id).store cpu)).frames id) (s.phase other)
      (s.pending other)
    rw [setFrame_frames]
    refine link.agree ?_ ?_ ?_
    · rfl
    · exact update_of_ne apart ..
    · rfl

theorem Progress.complete {caller cpu id pending : Nat}
    (progress : Progress caller cpu id frame phase pending) (counted : 2 ≤ frame.count) :
    Past caller phase ∧ pending = 0 ∧ frame.ran cpu = 1 := by
  cases progress with
  | handled past ran => exact ⟨past, rfl, ran⟩
  | storing _ count => omega
  | counting _ count => omega
  | sent _ fresh => exact absurd fresh.count (by omega)
  | scanning _ fresh => exact absurd fresh.count (by omega)
  | testing fresh => exact absurd fresh.count (by omega)
  | running fresh => exact absurd fresh.count (by omega)

section

variable (inv : Inv s)
include inv

section

variable (booted : cpu < s.lastCPU)
include booted

theorem Inv.callStep_waiting
    (calls : s.phase cpu = .calling .waiting id) (complete : ¬ (s.frames id).count < s.lastCPU) :
    Inv (s.goto cpu (.calling .clearing id)) := by
  have slot : s.slot cpu = some id := by rw [inv.slots, calls]; rfl
  refine inv.callStep booted calls .clearing (s.frames id) (some id)
    s.pending ?_ rfl rfl (inv.ranLocally cpu .waiting id calls) rfl ?_
  · show _ = ((s.setFrame id (s.frames id)).setSlot cpu _).goto _ _
    rw [setFrame_same, setSlot_same slot]
  · intro other below apart link
    have counted : 2 ≤ (s.frames id).count := by omega
    unfold Link at *
    rw [calls] at link
    rw [goto_phase, goto_phase_of_ne _ _ apart]
    exact link.complete counted

theorem Inv.callStep_clearing (calls : s.phase cpu = .calling .clearing id) :
    Inv ((s.setSlot cpu none).goto cpu (.calling .returning id)) := by
  refine inv.callStep booted calls .returning (s.frames id) none
    s.pending ?_ rfl rfl (inv.ranLocally cpu .clearing id calls) rfl ?_
  · show _ = ((s.setFrame id (s.frames id)).setSlot cpu _).goto _ _
    rw [setFrame_same]
  · intro other below apart link
    unfold Link at *
    rw [calls] at link
    rw [goto_phase, goto_phase_of_ne _ _ apart]
    exact link

theorem Inv.callStep_returning (calls : s.phase cpu = .calling .returning id) :
    Inv ((s.setFrame id { s.frames id with live := false }).goto cpu .idle) := by
  have own : ∀ other stage, other ≠ cpu → s.phase other ≠ .calling stage id := by
    intro other stage apart calls'
    exact inv.other_frame calls apart calls' rfl
  have frames : Frames ((s.setFrame id { s.frames id with live := false }).goto cpu .idle) := by
    refine inv.toFrames.leave booted rfl (by rw [calls]; rfl) (by simp) ?_
    intro other stage apart calls'
    exact absurd calls' (own other stage apart)
  refine inv.caller id booted frames rfl (fun other => goto_phase_of_ne _ _) (by simp [calls])
    (by simp) ?_ own rfl ?_
  · intro other away
    exact setFrame_frames_of_ne s _ away
  · intro other below apart link
    refine (link_uncalled (by simp)).mpr ?_
    unfold Link at link
    rw [calls] at link
    rw [goto_phase_of_ne _ _ apart]
    exact ⟨link.1, link.2.1⟩

theorem Inv.handler
    (uncalled : ∀ stage id, s.phase cpu ≠ .calling stage id) (id : Nat) (frame : Frame)
    (pending : Nat → Nat) (phase : Phase)
    (result : s' = ({ s with pending := pending }.setFrame id frame).goto cpu phase)
    (uncalled' : ∀ stage id, phase ≠ .calling stage id) (live : frame.live = (s.frames id).live)
    (ran : ∀ other, other ≠ cpu → frame.ran other = (s.frames id).ran other)
    (others : ∀ other, other ≠ cpu → pending other = s.pending other)
    (asHandler : ∀ caller < 2, caller ≠ cpu → Link s caller cpu → Link s' caller cpu) : Inv s' := by
  have few := inv.few
  have empty : (s.phase cpu).posting = none := by
    cases phase : s.phase cpu with
    | calling stage id => exact absurd phase (uncalled stage id)
    | _ => rfl
  have frames : Frames s' :=
    inv.toFrames.leave booted result empty uncalled' (fun other _ apart _ => ⟨live, ran other apart⟩)
  subst result
  refine inv.of_mover booted frames rfl ?_ ?_
  · intro other below apart
    have link := inv.links cpu (by omega) other below (Ne.symm apart)
    obtain ⟨past, none'⟩ := (link_uncalled uncalled).mp link
    refine (link_uncalled (by simpa using uncalled')).mpr ?_
    rw [goto_phase_of_ne _ _ apart]
    exact ⟨past, (others other apart).trans none'⟩
  · intro caller real apart
    exact asHandler caller real apart (inv.links caller real cpu booted apart)

end

theorem Inv.deliver {cpu left : Nat} (booted : cpu < s.lastCPU)
    (idle : s.phase cpu = .idle) (raised : s.pending cpu = left + 1) :
    Inv ({ s with pending := update s.pending cpu left }.goto cpu (.handling 0 .read)) := by
  refine inv.handler booted (by simp [idle]) 0 (s.frames 0) (update s.pending cpu left)
    (.handling 0 .read) ?_ (by simp) rfl (fun _ _ => rfl) ?_ ?_
  · exact congrArg (fun t => State.goto t cpu _) (setFrame_same _ 0).symm
  · intro other apart
    exact update_of_ne apart ..
  · intro caller real apart link
    have same := goto_phase_of_ne { s with pending := update s.pending cpu left }
      (.handling 0 .read) apart
    unfold Link at *
    rw [same, goto_phase]
    cases awaited : (s.phase caller).awaited with
    | none =>
      rw [awaited] at link
      omega
    | some id =>
      rw [awaited, raised, idle] at link
      show Progress caller cpu id (s.frames id) (.handling 0 .read)
        (update s.pending cpu left cpu)
      rw [update_self]
      cases link with
      | sent _ fresh => exact .scanning (Nat.zero_le _) fresh

theorem Inv.slot_none {cpu caller c : Nat} {c' : Nat}
    (handles : s.phase cpu = .handling c' item) (booted : cpu < s.lastCPU) (real : caller < 2)
    (apart : caller ≠ cpu) (other : c ≠ caller) : s.slot c = none := by
  have few := inv.few
  rw [inv.slots]
  by_cases own : c = cpu
  · rw [own, handles]
    rfl
  · rw [inv.absent c (by omega)]
    rfl

section

variable (booted : cpu < s.lastCPU)
include booted

theorem Inv.handler_goto (handles : s.phase cpu = .handling c item)
    (uncalled : ∀ stage id, phase ≠ .calling stage id)
    (past : ∀ caller < 2, caller ≠ cpu → Past caller (.handling c item) → Past caller phase)
    (progress : ∀ caller < 2, caller ≠ cpu → ∀ id, (s.phase caller).awaited = some id →
      Progress caller cpu id (s.frames id) (.handling c item) (s.pending cpu) →
      Progress caller cpu id (s.frames id) phase (s.pending cpu)) :
    Inv (s.goto cpu phase) := by
  refine inv.handler booted (by simp [handles]) 0 (s.frames 0) s.pending phase ?_ uncalled rfl
    (fun _ _ => rfl) (fun _ _ => rfl) ?_
  · exact congrArg (fun t => State.goto t cpu _) (setFrame_same _ 0).symm
  · intro caller real apart link
    unfold Link at *
    rw [goto_phase_of_ne _ _ apart, goto_phase]
    cases awaited : (s.phase caller).awaited with
    | none =>
      rw [awaited, handles] at link
      exact ⟨past caller real apart link.1, link.2⟩
    | some id =>
      rw [awaited, handles] at link
      exact progress caller real apart id awaited link

section

variable (handles : s.phase cpu = .handling c .read)
include handles

theorem Inv.handler_skip (empty : s.slot c = none) : Inv (s.goto cpu (.handling (c + 1) .read)) := by
  refine inv.handler_goto booted handles (by simp) ?_ ?_
  · intro caller _ _ past
    exact lt_succ_of_lt past
  · intro caller real apart id awaited progress
    generalize s.pending cpu = pending at *
    cases progress with
    | sent past fresh => exact .sent (lt_succ_of_lt past) fresh
    | handled past ran => exact .handled (lt_succ_of_lt past) ran
    | scanning ahead fresh =>
      refine .scanning (lt_of_le_of_ne ahead ?_) fresh
      rintro rfl
      obtain ⟨stage, calls⟩ := awaited_calling awaited
      rw [inv.slots, calls] at empty
      rw [calls] at awaited
      cases stage <;> cases awaited <;> cases empty

theorem Inv.handler_exit (last : ¬ c ≤ s.lastCPU) : Inv (s.goto cpu .idle) := by
  refine inv.handler_goto booted handles (by simp) (fun _ _ _ _ => trivial) ?_
  intro caller real apart id awaited progress
  have callerBooted : caller < s.lastCPU := by
    by_contra beyond
    rw [inv.absent caller (by omega)] at awaited
    cases awaited
  generalize s.pending cpu = pending at *
  cases progress with
  | sent _ fresh => exact .sent trivial fresh
  | handled _ ran => exact .handled trivial ran
  | scanning ahead _ => omega

theorem Inv.handler_found (found : s.slot c = some id) :
    Inv (s.goto cpu (.handling c (.test id))) := by
  have there : ∀ caller < 2, caller ≠ cpu → c = caller := by
    intro caller real apart
    by_contra other
    rw [inv.slot_none handles booted real apart other] at found
    cases found
  refine inv.handler_goto booted handles (by simp) ?_ ?_
  · intro caller real apart past
    have := there caller real apart
    exact absurd past (by show ¬ caller < c; omega)
  · intro caller real apart id' awaited progress
    obtain rfl := there caller real apart
    have same : id' = id := by
      obtain ⟨stage, calls⟩ := awaited_calling awaited
      rw [inv.slots, calls] at found
      rw [calls] at awaited
      cases stage <;> cases awaited <;> cases found <;> rfl
    subst same
    generalize s.pending cpu = pending at *
    cases progress with
    | sent past _ => exact absurd past (lt_irrefl _)
    | handled past _ => exact absurd past (lt_irrefl _)
    | scanning _ fresh => exact .testing fresh

end

theorem Inv.handler_item (handles : s.phase cpu = .handling c item) (read : item ≠ .read) :
    ∃ caller < 2, caller ≠ cpu ∧ ∃ id, (s.phase caller).awaited = some id ∧
      Progress caller cpu id (s.frames id) (.handling c item) (s.pending cpu) := by
  have link := inv.links (1 - cpu) (by omega) cpu booted (by omega)
  refine ⟨1 - cpu, by omega, by omega, ?_⟩
  unfold Link at link
  rw [handles] at link
  cases awaited : (s.phase (1 - cpu)).awaited with
  | none =>
    rw [awaited] at link
    cases item with
    | read => exact absurd rfl read
    | _ => exact link.1.elim
  | some id =>
    rw [awaited] at link
    exact ⟨id, rfl, link⟩

end

end

theorem Progress.at_frame {caller cpu id id' c pending : Nat}
    (progress : Progress caller cpu id' frame (.handling c item) pending)
    (place : item = .test id ∨ item = .run id ∨ item = .store id ∨ item = .increment id) :
    id' = id := by
  rcases place with rfl | rfl | rfl | rfl <;> cases progress <;> simp_all [Past]

section

variable (inv : Inv s)
include inv

section

variable (booted : cpu < s.lastCPU)
include booted

theorem Inv.handler_live (handles : s.phase cpu = .handling c item)
    (place : item = .test id ∨ item = .run id ∨ item = .store id ∨ item = .increment id) :
    (s.frames id).live = true := by
  have read : item ≠ .read := by
    rintro rfl
    simp at place
  obtain ⟨caller, _, _, id', awaited, progress⟩ := inv.handler_item booted handles read
  have same : id' = id := progress.at_frame place
  obtain ⟨stage, calls⟩ := awaited_calling awaited
  exact same ▸ inv.live caller stage id' calls

theorem Inv.handler_test (handles : s.phase cpu = .handling c (.test id)) :
    (s.frames id).done cpu = false ∧ Inv (s.goto cpu (.handling c (.run id))) := by
  constructor
  · obtain ⟨caller, _, _, id', _, progress⟩ := inv.handler_item booted handles (by simp)
    generalize s.pending cpu = pending at progress
    cases progress with
    | testing fresh => exact fresh.done
    | sent past _ => exact past.elim
    | handled past _ => exact past.elim
  · refine inv.handler_goto booted handles (by simp) (fun _ _ _ past => past.elim) ?_
    intro caller _ _ id' _ progress
    generalize s.pending cpu = pending at *
    cases progress with
    | testing fresh => exact .running fresh
    | sent past _ => exact past.elim
    | handled past _ => exact past.elim

theorem Inv.handler_frame (handles : s.phase cpu = .handling c item)
    (place : item = .run id ∨ item = .store id ∨ item = .increment id)
    (live : frame.live = (s.frames id).live)
    (ran : ∀ other, other ≠ cpu → frame.ran other = (s.frames id).ran other)
    (uncalled : ∀ stage id, phase ≠ .calling stage id)
    (progress : ∀ caller, Progress caller cpu id (s.frames id) (.handling c item) (s.pending cpu) →
      Progress caller cpu id frame phase (s.pending cpu)) :
    Inv ((s.setFrame id frame).goto cpu phase) := by
  refine inv.handler booted (by simp [handles]) id frame s.pending phase rfl uncalled live ran
    (fun _ _ => rfl) ?_
  intro caller real apart link
  unfold Link at *
  rw [goto_phase_of_ne _ _ apart, goto_phase]
  rw [handles] at link
  show (match (s.phase caller).awaited with
    | some id' => Progress caller cpu id' ((s.setFrame id frame).frames id') phase (s.pending cpu)
    | none => _)
  cases awaited : (s.phase caller).awaited with
  | none =>
    rw [awaited] at link
    rcases place with rfl | rfl | rfl <;> exact link.1.elim
  | some id' =>
    rw [awaited] at link
    have same : id' = id := link.at_frame (.inr place)
    subst same
    show Progress caller cpu id' ((s.setFrame id' frame).frames id') phase (s.pending cpu)
    rw [setFrame_frames]
    exact progress caller link

theorem Inv.handler_run (handles : s.phase cpu = .handling c (.run id)) :
    Inv ((s.setFrame id ((s.frames id).run cpu)).goto cpu (.handling c (.store id))) := by
  refine inv.handler_frame booted handles (.inl rfl) rfl ?_ (by simp) ?_
  · intro other apart
    exact update_of_ne apart ..
  · intro caller progress
    generalize s.pending cpu = pending at *
    cases progress with
    | running fresh =>
      refine .storing ?_ fresh.count
      show update (s.frames id).ran cpu ((s.frames id).ran cpu + 1) cpu = 1
      rw [update_self, fresh.ran]
    | sent past _ => exact past.elim
    | handled past _ => exact past.elim

theorem Inv.handler_store (handles : s.phase cpu = .handling c (.store id)) :
    Inv ((s.setFrame id ((s.frames id).store cpu)).goto cpu (.handling c (.increment id))) := by
  refine inv.handler_frame booted handles (.inr (.inl rfl)) rfl (fun _ _ => rfl) (by simp) ?_
  intro caller progress
  generalize s.pending cpu = pending at *
  cases progress with
  | storing ran count => exact .counting ran count
  | sent past _ => exact past.elim
  | handled past _ => exact past.elim

theorem Inv.handler_increment (handles : s.phase cpu = .handling c (.increment id)) :
    Inv ((s.setFrame id (s.frames id).increment).goto cpu (.handling (c + 1) .read)) := by
  refine inv.handler_frame booted handles (.inr (.inr rfl)) rfl (fun _ _ => rfl) (by simp) ?_
  intro caller progress
  generalize s.pending cpu = pending at *
  cases progress with
  | counting ran _ => exact .handled (lt_succ_self _) ran
  | sent past _ => exact past.elim
  | handled past _ => exact past.elim

theorem Inv.callStep_any (calls : s.phase cpu = .calling stage id) :
    Inv (CrossCall.callStep s cpu stage id) := by
  cases stage with
  | posted => exact inv.callStep_posted booted calls
  | sent => exact inv.callStep_sent booted calls
  | ran => exact inv.callStep_ran booted calls
  | waiting =>
    unfold CrossCall.callStep
    by_cases missing : (s.frames id).count < s.lastCPU
    · rw [if_pos missing]
      exact inv
    · rw [if_neg missing]
      exact inv.callStep_waiting booted calls missing
  | clearing => exact inv.callStep_clearing booted calls
  | returning => exact inv.callStep_returning booted calls

theorem Inv.handlerStep_any (handles : s.phase cpu = .handling c item) :
    Inv (handlerStep s cpu c item) := by
  cases item with
  | read =>
    unfold handlerStep
    by_cases more : c ≤ s.lastCPU
    · rw [if_pos more]
      cases found : s.slot c with
      | none => exact inv.handler_skip booted handles found
      | some id => exact inv.handler_found booted handles found
    · rw [if_neg more]
      exact inv.handler_exit booted handles more
  | test id =>
    obtain ⟨undone, kept⟩ := inv.handler_test booted handles
    show Inv (if (s.frames id).done cpu then _ else _)
    rw [if_neg (by rw [undone]; decide)]
    exact kept
  | run id => exact inv.handler_run booted handles
  | store id => exact inv.handler_store booted handles
  | increment id => exact inv.handler_increment booted handles

end

theorem Inv.act (booted : label.cpu < s.lastCPU) (moved : act s label = some s') : Inv s' := by
  cases label with
  | call cpu =>
    cases phase : s.phase cpu with
    | idle =>
      simp only [CrossCall.act, phase, some.injEq] at moved
      subst moved
      exact inv.call booted phase
    | _ => simp [CrossCall.act, phase] at moved
  | deliver cpu =>
    cases phase : s.phase cpu with
    | idle =>
      cases raised : s.pending cpu with
      | zero => simp [CrossCall.act, phase, raised] at moved
      | succ left =>
        simp only [CrossCall.act, phase, raised, some.injEq] at moved
        subst moved
        exact inv.deliver booted phase raised
    | _ => simp [CrossCall.act, phase] at moved
  | step cpu =>
    cases phase : s.phase cpu with
    | idle => simp [CrossCall.act, phase] at moved
    | calling stage id =>
      simp only [CrossCall.act, phase, some.injEq] at moved
      subst moved
      exact inv.callStep_any booted phase
    | handling c item =>
      simp only [CrossCall.act, phase, some.injEq] at moved
      subst moved
      exact inv.handlerStep_any booted phase

theorem Inv.returns (booted : cpu < s.lastCPU) (calls : s.phase cpu = .calling .returning id) :
    ∀ other < s.lastCPU, (s.frames id).ran other = 1 := by
  intro other below
  by_cases own : other = cpu
  · rw [own]
    exact inv.ranLocally cpu _ id calls
  · have few := inv.few
    have link := inv.links cpu (by omega) other below (Ne.symm own)
    unfold Link at link
    rw [calls] at link
    exact link.2.2

theorem Inv.good (booted : label.cpu < s.lastCPU) (s' : State) : Good s label s' := by
  cases label with
  | step cpu =>
    cases phase : s.phase cpu with
    | idle => simp only [Good, phase]
    | calling stage id =>
      cases stage with
      | returning =>
        simp only [Good, phase]
        exact inv.returns booted phase
      | _ => simp only [Good, phase]
    | handling c item =>
      cases item with
      | read =>
        have few := inv.few
        simp only [Good, phase, MAX_CPUS]
        omega
      | test id =>
        simp only [Good, phase]
        exact inv.handler_live booted phase (.inl rfl)
      | run id =>
        simp only [Good, phase]
        exact inv.handler_live booted phase (.inr (.inl rfl))
      | store id =>
        simp only [Good, phase]
        exact inv.handler_live booted phase (.inr (.inr (.inl rfl)))
      | increment id =>
        simp only [Good, phase]
        exact inv.handler_live booted phase (.inr (.inr (.inr rfl)))
  | _ => trivial

end

theorem initial_inv (few : n ≤ 2) : Inv (initial n) where
  absent := fun _ _ => rfl
  slots := fun _ => rfl
  used := by
    intro cpu stage id calls
    cases calls
  live := by
    intro cpu stage id calls
    cases calls
  unique := by
    intro one other stage stage' id calls
    cases calls
  ranLocally := by
    intro cpu stage id calls
    cases calls
  few := few
  links := fun _ _ _ _ _ => ⟨trivial, rfl, trivial⟩

theorem two_cpus_good (few : n ≤ 2) (labels : List Label) : Along apply Good (initial n) labels := by
  have all : ∀ (labels : List Label) (s : State), Inv s → Along apply Good s labels := by
    intro labels
    induction labels with
    | nil =>
      intro s _
      trivial
    | cons label labels ih =>
      intro s inv s' moved
      obtain ⟨booted, moved⟩ := ite_none_right_eq_some.mp moved
      exact ⟨inv.good booted s', ih s' (inv.act booted moved)⟩
  exact all labels (initial n) (initial_inv few)

/-- CPU 0 calls, and all others handle its frame. CPU 1 is done with the interrupt first and calls
too, and its interrupt makes CPU 2 read the slot of CPU 0 once more. CPU 0 returns, and CPU 2 looks
into the frame. -/
def overtaken (n : Nat) : List Label :=
  [.call 0, .step 0] ++
    (List.range (n - 1)).flatMap (fun k => .deliver (k + 1) :: List.replicate 5 (.step (k + 1))) ++
    List.replicate (n + 1) (.step 1) ++ [.call 1, .step 1] ++
    List.replicate (n + 5) (.step 2) ++ [.deliver 2, .step 2] ++
    List.replicate 5 (.step 0) ++ [.step 2]

theorem overtaken_bad (many : 3 ≤ n) (most : n ≤ MAX_CPUS) :
    ¬ Along apply Good (initial n) (overtaken n) := by
  unfold MAX_CPUS at most
  interval_cases n <;> decide +kernel

/-- Of up to 16 booted CPUs, all runs are good exactly with at most two. -/
theorem cross_calls_good_iff (n : Nat) (most : n ≤ MAX_CPUS) :
    (∀ labels, Along apply Good (initial n) labels) ↔ n ≤ 2 := by
  constructor
  · intro good
    by_contra many
    exact overtaken_bad (by omega) most (good (overtaken n))
  · intro few labels
    exact two_cpus_good few labels

theorem cross_calls_good_iff_two :
    2 ≤ MAX_CPUS ∧ ∀ labels, Along apply Good (initial 2) labels :=
  ⟨by decide, (cross_calls_good_iff 2 (by decide)).mpr (by decide)⟩

/-- With three CPUs a handler reads a frame whose call has returned; with sixteen it reads the slot
`cpus[16]`. -/
theorem cross_calls_unsound :
    ¬ Along apply Good (initial 3) (overtaken 3) ∧
      ¬ Along apply Good (initial 16)
        ([.call 0, .step 0, .deliver 1] ++ List.replicate 22 (.step 1)) := by
  constructor
  · exact overtaken_bad (by decide) (by decide)
  · decide

end BoringOs.CrossCall
