import Mathlib.Data.List.Basic

/-! Finite runs of a labelled transition relation and the rules for what holds in every state they
reach. -/

namespace Runs

variable {State Label : Type}

/-- The states a list of labels leads to, one transition a label. -/
inductive Run (step : State → Label → State → Prop) : State → List Label → State → Prop where
  | nil (s : State) : Run step s [] s
  | cons {s t u : State} {label : Label} {labels : List Label} :
      step s label t → Run step t labels u → Run step s (label :: labels) u

variable {step : State → Label → State → Prop}

/-- The invariant rule: what every transition keeps holds at the end of every run. -/
theorem Run.invariant (inv : State → Prop) (preserved : ∀ s label t, inv s → step s label t → inv t)
    {s t : State} {labels : List Label} (ran : Run step s labels t) (start : inv s) : inv t := by
  induction ran with
  | nil s => exact start
  | cons first _ ih => exact ih (preserved _ _ _ start first)

theorem Run.single {s t : State} {label : Label} (move : step s label t) : Run step s [label] t :=
  Run.cons move (Run.nil t)

theorem Run.of_exec {apply : State → Label → Option State} {s t : State} {labels : List Label}
    (moves : ∀ s, ∀ label ∈ labels, ∀ t, apply s label = some t → step s label t)
    (ran : labels.foldlM apply s = some t) : Run step s labels t := by
  induction labels generalizing s with
  | nil =>
    cases ran
    exact Run.nil _
  | cons label labels ih =>
    rw [List.foldlM_cons] at ran
    obtain ⟨u, first, rest⟩ := Option.bind_eq_some_iff.mp ran
    exact Run.cons (moves s label List.mem_cons_self u first)
      (ih (fun s label member => moves s label (List.mem_cons_of_mem _ member)) rest)

theorem Run.of_exec_any {apply : State → Label → Option State} {s : State} {labels : List Label}
    {test : State → Bool}
    (moves : ∀ s, ∀ label ∈ labels, ∀ t, apply s label = some t → step s label t)
    (passed : (labels.foldlM apply s).any test = true) :
    ∃ t, Run step s labels t ∧ test t = true := by
  cases ran : labels.foldlM apply s with
  | none =>
    rw [ran] at passed
    exact absurd passed (by simp)
  | some t =>
    rw [ran] at passed
    exact ⟨t, Run.of_exec moves ran, passed⟩

/-! Runs of a partial function, and the exact condition under which all their transitions
are good. A label the function refuses ends the run. -/

section

variable {apply : State → Label → Option State}

/-- Every transition of the run is good. -/
def Along (apply : State → Label → Option State) (good : State → Label → State → Prop) :
    State → List Label → Prop
  | _, [] => True
  | s, label :: labels => ∀ t, apply s label = some t → good s label t ∧ Along apply good t labels

instance Along.decidable {good : State → Label → State → Prop}
    [∀ s label t, Decidable (good s label t)] (s : State) (labels : List Label) :
    Decidable (Along apply good s labels) :=
  match labels with
  | [] => isTrue trivial
  | label :: labels =>
    match moved : apply s label with
    | none => isTrue (fun t reached => by rw [moved] at reached; cases reached)
    | some t =>
      have : Decidable (Along apply good t labels) := Along.decidable t labels
      decidable_of_iff (good s label t ∧ Along apply good t labels) (by simp [Along, moved])

theorem Along.mono {good better : State → Label → State → Prop}
    (implied : ∀ s label t, better s label t → good s label t) {s : State} {labels : List Label}
    (along : Along apply better s labels) : Along apply good s labels := by
  induction labels generalizing s with
  | nil => exact along
  | cons label labels ih =>
    intro t moved
    obtain ⟨fine, rest⟩ := along t moved
    exact ⟨implied s label t fine, ih rest⟩

/-- Transitions that are guarded are good as long as they also keep an invariant. -/
theorem Along.imp {good guard : State → Label → State → Prop} (inv : State → Prop)
    (keeps : ∀ s label t, inv s → apply s label = some t → guard s label t → good s label t ∧ inv t)
    {s : State} {labels : List Label} (along : Along apply guard s labels) (start : inv s) :
    Along apply good s labels := by
  induction labels generalizing s with
  | nil => exact along
  | cons label labels ih =>
    intro t moved
    obtain ⟨guarded, rest⟩ := along t moved
    obtain ⟨fine, kept⟩ := keeps s label t start moved guarded
    exact ⟨fine, ih rest kept⟩

theorem along_iff_within {good guard : State → Label → State → Prop} (inv : Nat → State → Prop)
    (keeps : ∀ left s label t, inv (left + 1) s → apply s label = some t → guard s label t →
      good s label t ∧ inv left t)
    (breaks : ∀ left s label t, inv (left + 1) s → apply s label = some t → ¬ guard s label t →
      ¬ good s label t)
    {s : State} (labels : List Label) (start : inv labels.length s) :
    Along apply good s labels ↔ Along apply guard s labels := by
  induction labels generalizing s with
  | nil => exact Iff.rfl
  | cons label labels ih =>
    constructor
    · intro along t moved
      obtain ⟨fine, rest⟩ := along t moved
      have guarded : guard s label t := by
        by_contra missing
        exact breaks _ s label t start moved missing fine
      exact ⟨guarded, (ih (keeps _ s label t start moved guarded).2).mp rest⟩
    · intro along t moved
      obtain ⟨guarded, rest⟩ := along t moved
      obtain ⟨fine, kept⟩ := keeps _ s label t start moved guarded
      exact ⟨fine, (ih kept).mpr rest⟩

theorem along_iff {good guard : State → Label → State → Prop} (inv : State → Prop)
    (keeps : ∀ s label t, inv s → apply s label = some t → guard s label t →
      good s label t ∧ inv t)
    (breaks : ∀ s label t, inv s → apply s label = some t → ¬ guard s label t → ¬ good s label t)
    {s : State} (start : inv s) (labels : List Label) :
    Along apply good s labels ↔ Along apply guard s labels :=
  along_iff_within (fun _ => inv) (fun _ => keeps) (fun _ => breaks) labels start

end

/-! A journal of deterministic updates, cut off after any number of them. -/

section

variable {State Update : Type} {apply : State → Update → State} {good : State → Prop}
  {start : State} {updates : List Update}

def replay (apply : State → Update → State) (start : State) (updates : List Update) : State :=
  updates.foldl apply start

/-- Every part of the journal that may have been carried out leads to a good state. -/
def Throughout (apply : State → Update → State) (good : State → Prop) (start : State)
    (updates : List Update) : Prop :=
  ∀ done, done <+: updates → good (replay apply start done)

theorem replay_snoc (update : Update) :
    replay apply start (updates ++ [update]) = apply (replay apply start updates) update := by
  simp [replay]

theorem Throughout.nil (holds : good start) : Throughout apply good start [] := by
  intro done cut
  rw [List.prefix_nil.mp cut]
  exact holds

theorem Throughout.snoc (before : Throughout apply good start updates) {update : Update}
    (holds : good (apply (replay apply start updates) update)) :
    Throughout apply good start (updates ++ [update]) := by
  intro done cut
  rcases List.prefix_concat_iff.mp cut with whole | shorter
  · rw [whole, replay_snoc]
    exact holds
  · exact before done shorter

end

end Runs
