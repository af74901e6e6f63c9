import Mathlib.Data.List.Induction

/-! Radix trees in a store of nodes: every word of a node is empty or names a child. A forest is a
family of paths that lead to pairwise different nodes, none of them free. -/

namespace RadixTree

open List

variable {Node Index Word : Type}

/-- The node at the end of a path. -/
def reach (child : Word → Option Node) (words : Node → Index → Word) (root : Node) :
    List Index → Option Node
  | [] => some root
  | i :: path => (child (words root i)).bind fun next => reach child words next path

/-- The word under the last index, `zero` where there is no node. -/
def lookup (child : Word → Option Node) (zero : Word) (words : Node → Index → Word) (root : Node)
    (path : List Index) (last : Index) : Word :=
  match reach child words root path with
  | none => zero
  | some node => words node last

variable {child : Word → Option Node} {zero : Word} {words after : Node → Index → Word}

theorem reach_snoc (root : Node) (path : List Index) (i : Index) :
    reach child words root (path ++ [i]) =
      (reach child words root path).bind fun node => child (words node i) := by
  induction path generalizing root with
  | nil => simp [reach]
  | cons j path ih =>
    simp only [cons_append, reach, Option.bind_assoc]
    congr 1
    funext next
    exact ih next

/-- The paths in `inside` lead to different nodes that are not `free`. -/
structure Forest (child : Word → Option Node) (words : Node → Index → Word)
  (inside : Node → List Index → Prop) (free : Node → Prop) : Prop where
  closed : ∀ root path i, inside root (path ++ [i]) → inside root path
  unique : ∀ root path root' path' node, inside root path → inside root' path' →
    reach child words root path = some node → reach child words root' path' = some node →
    root = root' ∧ path = path'
  live : ∀ root path node, inside root path → reach child words root path = some node → ¬ free node

section

variable {inside : Node → List Index → Prop} {free : Node → Prop}
  {root : Node} {path : List Index} {node fresh : Node} {i : Index}

/-- A free node with no children is hung under an empty word. -/
structure Hung (child : Word → Option Node) (words after : Node → Index → Word) (node : Node)
  (i : Index) (fresh : Node) : Prop where
  empty : child (words node i) = none
  blank : ∀ j, child (after fresh j) = none
  linked : child (after node i) = some fresh
  same : ∀ other j, other ≠ fresh → (other ≠ node ∨ j ≠ i) → after other j = words other j

section

variable (forest : Forest child words inside free)
include forest

section

variable (member : inside root (path ++ [i])) (found : reach child words root path = some node)
include member found

theorem Forest.reach_hang (spare : free fresh)
    (hung : Hung child words after node i fresh) (root' : Node) (path' : List Index)
    (member' : inside root' path') :
    (root' = root ∧ path' = path ++ [i] ∧ reach child after root' path' = some fresh) ∨
      (¬ (root' = root ∧ path' = path ++ [i]) ∧
        reach child after root' path' = reach child words root' path') := by
  have above := forest.closed root path i member
  induction path' using reverseRecOn with
  | nil =>
    right
    refine ⟨?_, rfl⟩
    rintro ⟨_, nil⟩
    simp at nil
  | append_singleton front j ih =>
    have parent := forest.closed root' front j member'
    rw [reach_snoc, reach_snoc]
    rcases ih parent with ⟨rfl, rfl, there⟩ | ⟨elsewhere, same⟩
    · -- below the new node there is nothing, as there was nothing below the empty word
      right
      constructor
      · rintro ⟨_, longer⟩
        simpa using congrArg length longer
      · rw [there, reach_snoc, found]
        simp [hung.empty, hung.blank]
    · rw [same]
      cases reached : reach child words root' front with
      | none =>
        right
        refine ⟨?_, rfl⟩
        rintro ⟨rfl, equal⟩
        obtain ⟨rfl, _⟩ := append_inj' equal rfl
        rw [found] at reached
        cases reached
      | some other =>
        have old : other ≠ fresh := by
          rintro rfl
          exact forest.live root' front other parent reached spare
        by_cases here : root' = root ∧ front ++ [j] = path ++ [i]
        · left
          obtain ⟨rfl, equal⟩ := here
          obtain ⟨rfl, last⟩ := append_inj' equal rfl
          rw [found] at reached
          cases reached
          obtain rfl : j = i := by simpa using last
          exact ⟨rfl, rfl, hung.linked⟩
        · right
          refine ⟨here, ?_⟩
          have apart : other ≠ node ∨ j ≠ i := by
            by_contra both
            rw [not_or, not_not, not_not] at both
            obtain ⟨rfl, rfl⟩ := both
            obtain ⟨rfl, rfl⟩ := forest.unique _ _ _ _ _ parent above reached found
            exact here ⟨rfl, rfl⟩
          simp [hung.same other j old apart]

theorem Forest.hang (spare : free fresh) (hung : Hung child words after node i fresh) :
    Forest child after inside (fun other => free other ∧ other ≠ fresh) where
  closed := forest.closed
  unique := by
    intro r p r' p' other first second reached reached'
    rcases forest.reach_hang member found spare hung r p first with ⟨rfl, rfl, new⟩ | ⟨_, old⟩ <;>
      rcases forest.reach_hang member found spare hung r' p' second with ⟨rfl, rfl, new'⟩ | ⟨_, old'⟩
    · exact ⟨rfl, rfl⟩
    · rw [new] at reached
      cases reached
      rw [old'] at reached'
      exact absurd spare (forest.live _ _ _ second reached')
    · rw [new'] at reached'
      cases reached'
      rw [old] at reached
      exact absurd spare (forest.live _ _ _ first reached)
    · rw [old] at reached
      rw [old'] at reached'
      exact forest.unique _ _ _ _ _ first second reached reached'
  live := by
    rintro r p other inner reached ⟨spare', apart⟩
    rcases forest.reach_hang member found spare hung r p inner with ⟨_, _, new⟩ | ⟨_, old⟩
    · rw [new] at reached
      cases reached
      exact apart rfl
    · rw [old] at reached
      exact forest.live r p other inner reached spare'

theorem Forest.lookup_hang (spare : free fresh) (hung : Hung child words after node i fresh)
    (clear : ∀ j, after fresh j = zero) {root' : Node} {path' : List Index}
    (member' : inside root' path') (elsewhere : path' ≠ path) (last : Index) :
    lookup child zero after root' path' last = lookup child zero words root' path' last := by
  have above := forest.closed root path i member
  unfold lookup
  rcases forest.reach_hang member found spare hung root' path' member' with ⟨rfl, rfl, new⟩ | ⟨_, old⟩
  · have missing : reach child words root' (path ++ [i]) = none := by
      rw [reach_snoc, found]
      exact hung.empty
    rw [new, missing]
    exact clear last
  · rw [old]
    cases reached : reach child words root' path' with
    | none => rfl
    | some other =>
      have kept : other ≠ fresh := by
        rintro rfl
        exact forest.live _ _ _ member' reached spare
      have apart : other ≠ node := by
        rintro rfl
        exact elsewhere (forest.unique _ _ _ _ _ member' above reached found).2
      exact hung.same other last kept (.inl apart)

end

theorem Forest.reach_store (member : inside root path)
    (found : reach child words root path = some node) (leaf : ∀ j, ¬ inside root (path ++ [j]))
    (same : ∀ other j, other ≠ node → after other j = words other j) (root' : Node)
    (path' : List Index) (member' : inside root' path') :
    reach child after root' path' = reach child words root' path' := by
  induction path' using reverseRecOn with
  | nil => rfl
  | append_singleton front j ih =>
    have parent := forest.closed root' front j member'
    rw [reach_snoc, reach_snoc, ih parent]
    cases reached : reach child words root' front with
    | none => rfl
    | some other =>
      have apart : other ≠ node := by
        rintro rfl
        obtain ⟨rfl, rfl⟩ := forest.unique _ _ _ _ _ parent member reached found
        exact leaf j member'
      simp [same other j apart]

theorem Forest.lookup_store (zero : Word) (member : inside root path)
    (found : reach child words root path = some node) (leaf : ∀ j, ¬ inside root (path ++ [j]))
    {last : Index} (same : ∀ other j, other ≠ node ∨ j ≠ last → after other j = words other j)
    {root' : Node} {path' : List Index} (member' : inside root' path') (last' : Index) :
    (root' = root ∧ path' = path ∧ last' = last ∧
        lookup child zero after root' path' last' = after node last) ∨
      (¬ (root' = root ∧ path' = path ∧ last' = last) ∧
        lookup child zero after root' path' last' = lookup child zero words root' path' last') := by
  have kept := forest.reach_store member found leaf (fun other j apart => same other j (.inl apart))
    root' path' member'
  unfold lookup
  rw [kept]
  by_cases here : root' = root ∧ path' = path ∧ last' = last
  · left
    obtain ⟨rfl, rfl, rfl⟩ := here
    rw [found]
    exact ⟨rfl, rfl, rfl, rfl⟩
  · right
    refine ⟨here, ?_⟩
    cases reached : reach child words root' path' with
    | none => rfl
    | some other =>
      refine same other last' ?_
      by_contra both
      rw [not_or, not_not, not_not] at both
      obtain ⟨rfl, rfl⟩ := both
      obtain ⟨rfl, rfl⟩ := forest.unique _ _ _ _ _ member' member reached found
      exact here ⟨rfl, rfl, rfl⟩

theorem Forest.store (member : inside root path)
    (found : reach child words root path = some node) (leaf : ∀ j, ¬ inside root (path ++ [j]))
    (same : ∀ other j, other ≠ node → after other j = words other j) :
    Forest child after inside free where
  closed := forest.closed
  unique := by
    intro r p r' p' other first second reached reached'
    rw [forest.reach_store member found leaf same r p first] at reached
    rw [forest.reach_store member found leaf same r' p' second] at reached'
    exact forest.unique _ _ _ _ _ first second reached reached'
  live := by
    intro r p other inner reached
    rw [forest.reach_store member found leaf same r p inner] at reached
    exact forest.live _ _ _ inner reached

theorem Forest.reach_words (root : Node)
    (same : ∀ path node, inside root path → reach child words root path = some node →
      after node = words node) (path : List Index) (member : inside root path) :
    reach child after root path = reach child words root path := by
  induction path using reverseRecOn with
  | nil => rfl
  | append_singleton front j ih =>
    have parent := forest.closed root front j member
    rw [reach_snoc, reach_snoc, ih parent]
    cases reached : reach child words root front with
    | none => rfl
    | some node => rw [Option.bind_some, Option.bind_some, same front node parent reached]

section

variable (off : ∀ root path, inside root path → reach child words root path ≠ some fresh)
  (same : ∀ other, other ≠ fresh → after other = words other)
include off same

theorem Forest.reach_off (root : Node) (path : List Index)
    (member : inside root path) : reach child after root path = reach child words root path := by
  refine forest.reach_words root (fun front node parent reached => same node ?_) path member
  rintro rfl
  exact off root front parent reached

theorem Forest.take {rest : Node → Prop}
    (fewer : ∀ node, rest node → free node) : Forest child after inside rest := by
  have kept := forest.reach_off off same
  refine ⟨forest.closed, ?_, ?_⟩
  · intro r p r' p' node first second reached reached'
    rw [kept r p first] at reached
    rw [kept r' p' second] at reached'
    exact forest.unique _ _ _ _ _ first second reached reached'
  · intro r p node member reached spare
    rw [kept r p member] at reached
    exact forest.live _ _ _ member reached (fewer node spare)

end

end

theorem reach_blank {extra : List Index → Prop} (closed : ∀ path i, extra (path ++ [i]) → extra path)
    (blank : ∀ i, extra [i] → child (after fresh i) = none) (path : List Index) (member : extra path) :
    path = [] ∨ reach child after fresh path = none := by
  induction path using reverseRecOn with
  | nil => exact .inl rfl
  | append_singleton front j ih =>
    right
    rw [reach_snoc]
    rcases ih (closed front j member) with rfl | missing
    · simpa [reach] using blank j member
    · rw [missing]
      rfl

theorem Forest.plant (forest : Forest child words inside free)
    (off : ∀ root path, inside root path → reach child words root path ≠ some fresh)
    (used : ¬ free fresh) (same : ∀ other, other ≠ fresh → after other = words other)
    (extra : List Index → Prop) (closed : ∀ path i, extra (path ++ [i]) → extra path)
    (blank : ∀ i, extra [i] → child (after fresh i) = none) :
    Forest child after (fun root path => inside root path ∨ (root = fresh ∧ extra path)) free := by
  have old := forest.reach_off off same
  have only : ∀ path node, extra path → reach child after fresh path = some node →
      path = [] ∧ node = fresh := by
    intro path node member reached
    rcases reach_blank closed blank path member with rfl | missing
    · exact ⟨rfl, (Option.some.inj reached).symm⟩
    · rw [missing] at reached
      cases reached
  constructor
  · rintro root path i (member | ⟨rfl, member⟩)
    · exact .inl (forest.closed root path i member)
    · exact .inr ⟨rfl, closed path i member⟩
  · rintro r p r' p' node (first | ⟨rfl, first⟩) (second | ⟨rfl, second⟩) reached reached'
    · rw [old r p first] at reached
      rw [old r' p' second] at reached'
      exact forest.unique _ _ _ _ _ first second reached reached'
    · obtain ⟨_, rfl⟩ := only p' node second reached'
      rw [old r p first] at reached
      exact absurd reached (off r p first)
    · obtain ⟨_, rfl⟩ := only p node first reached
      rw [old r' p' second] at reached'
      exact absurd reached' (off r' p' second)
    · exact ⟨rfl, (only p node first reached).1.trans (only p' node second reached').1.symm⟩
  · rintro r p node (member | ⟨rfl, member⟩) reached spare
    · rw [old r p member] at reached
      exact forest.live _ _ _ member reached spare
    · obtain ⟨_, rfl⟩ := only p node member reached
      exact used spare

end

end RadixTree
