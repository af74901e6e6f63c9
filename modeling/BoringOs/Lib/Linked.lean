import Mathlib.Data.List.Basic

/-! Singly linked lists of nodes at non-zero addresses, ended by zero. -/

namespace LinkedList

/-- The nodes that are reached from `first` along `next`. -/
def Linked (next : Nat → Nat) : Nat → List Nat → Prop
  | first, [] => first = 0
  | first, node :: nodes => first = node ∧ node ≠ 0 ∧ Linked next (next node) nodes

theorem Linked.congr {next other : Nat → Nat} {first : Nat} {nodes : List Nat}
    (linked : Linked next first nodes) (agree : ∀ node ∈ nodes, other node = next node) :
    Linked other first nodes := by
  induction nodes generalizing first with
  | nil => exact linked
  | cons node nodes ih =>
    obtain ⟨here, real, rest⟩ := linked
    refine ⟨here, real, ?_⟩
    rw [agree node List.mem_cons_self]
    exact ih rest (fun x member => agree x (List.mem_cons_of_mem _ member))

theorem Linked.first_eq {next : Nat → Nat} {first : Nat} {nodes : List Nat}
    (linked : Linked next first nodes) : first = nodes.headD 0 := by
  cases nodes with
  | nil => exact linked
  | cons node nodes => exact linked.1

end LinkedList
