import Selectors.Basic

/-!
# Nesting depth

How many lists stand inside one another. A member of a compound is never deeper
than the compound, nor a part of a chain or of a list than the whole; only a
pseudo goes one step further than its nested list.
-/
namespace Selectors

mutual

/-- One more than the nested list of a pseudo; zero without one. -/
def Simple.depth : Simple → Nat
  | .pseudo ⟨_, _, _, some ⟨alternatives, _⟩⟩ => Alternatives.depth alternatives + 1
  | _ => 0
termination_by structural simple => simple

def Compound.depth : Compound → Nat
  | [] => 0
  | simple :: rest => max simple.depth (Compound.depth rest)
termination_by structural compound => compound

def Chain.depth : Chain → Nat
  | [] => 0
  | .compound members :: rest => max (Compound.depth members) (Chain.depth rest)
  | .combinator _ :: rest => Chain.depth rest
termination_by structural chain => chain

def Alternatives.depth : Alternatives → Nat
  | [] => 0
  | ⟨components, _⟩ :: rest => max (Chain.depth components) (Alternatives.depth rest)
termination_by structural alternatives => alternatives

end

theorem Compound.depth_le_iff {compound : Compound} {bound : Nat} :
    compound.depth ≤ bound ↔ ∀ simple ∈ compound, simple.depth ≤ bound := by
  induction compound with
  | nil => simp [Compound.depth]
  | cons simple rest ih => simp only [Compound.depth, Nat.max_le, ih, List.forall_mem_cons]

theorem Chain.depth_le_iff {chain : Chain} {bound : Nat} :
    chain.depth ≤ bound ↔ ∀ members, .compound members ∈ chain → Compound.depth members ≤ bound := by
  induction chain with
  | nil => simp [Chain.depth]
  | cons component rest ih =>
    cases component with
    | compound members =>
      rw [Chain.depth, Nat.max_le, ih]
      simp
    | combinator kind => simp [Chain.depth, ih]

theorem Alternatives.depth_le_iff {alternatives : Alternatives} {bound : Nat} :
    alternatives.depth ≤ bound ↔
      ∀ complex ∈ alternatives, Chain.depth complex.components ≤ bound := by
  induction alternatives with
  | nil => simp [Alternatives.depth]
  | cons complex rest ih =>
    cases complex
    simp only [Alternatives.depth, Nat.max_le, ih, List.forall_mem_cons]

theorem Compound.depth_le_of_mem {compound : Compound} {simple : Simple} (h : simple ∈ compound) :
    simple.depth ≤ compound.depth :=
  Compound.depth_le_iff.mp (Nat.le_refl _) simple h

theorem Chain.depth_le_of_mem {chain : Chain} {members : Compound} (h : .compound members ∈ chain) :
    Compound.depth members ≤ chain.depth :=
  Chain.depth_le_iff.mp (Nat.le_refl _) members h

theorem Alternatives.depth_le_of_mem {alternatives : Alternatives} {complex : Complex}
    (h : complex ∈ alternatives) : Chain.depth complex.components ≤ alternatives.depth :=
  Alternatives.depth_le_iff.mp (Nat.le_refl _) complex h

@[simp] theorem Simple.depth_pseudo (name : String) (isClass : Bool) (argument : Option String)
    (list : SelectorList) :
    (Simple.pseudo ⟨name, isClass, argument, some list⟩).depth =
      Alternatives.depth list.alternatives + 1 := by
  cases list
  rfl

theorem Compound.depth_nested_lt {compound : Compound} {pseudo : Pseudo} {list : SelectorList}
    (h : .pseudo pseudo ∈ compound) (nested : pseudo.nested = some list) :
    Alternatives.depth list.alternatives < compound.depth := by
  obtain ⟨_, _, _, _⟩ := pseudo
  obtain rfl := nested
  have := Compound.depth_le_of_mem h
  rwa [Simple.depth_pseudo] at this

theorem Chain.depth_append (first second : Chain) :
    Chain.depth (first ++ second) = max first.depth second.depth := by
  induction first with
  | nil => simp [Chain.depth]
  | cons component rest ih => cases component <;> simp [Chain.depth, ih, Nat.max_assoc]

@[simp] theorem Chain.depth_single (members : Compound) :
    Chain.depth [.compound members] = members.depth := by
  simp [Chain.depth]

@[simp] theorem Alternatives.depth_single (complex : Complex) :
    Alternatives.depth [complex] = Chain.depth complex.components := by
  cases complex
  simp [Alternatives.depth]

theorem Chain.depth_le_of_subset {first second : Chain} (h : first ⊆ second) :
    first.depth ≤ second.depth :=
  Chain.depth_le_iff.mpr fun _ hm => Chain.depth_le_of_mem (h hm)

/-! ### Selectors without nested lists -/

theorem Simple.depth_eq_zero_of_mem {compound : Compound} {simple : Simple}
    (plain : compound.depth = 0) (member : simple ∈ compound) : simple.depth = 0 :=
  Nat.le_zero.mp (plain ▸ Compound.depth_le_of_mem member)

theorem Compound.depth_eq_zero_of_mem {chain : Chain} {members : Compound} (plain : chain.depth = 0)
    (member : .compound members ∈ chain) : members.depth = 0 :=
  Nat.le_zero.mp (plain ▸ Chain.depth_le_of_mem member)

theorem Chain.depth_eq_zero_of_subset {first second : Chain} (plain : second.depth = 0)
    (within : first ⊆ second) : first.depth = 0 :=
  Nat.le_zero.mp (plain ▸ Chain.depth_le_of_subset within)

end Selectors
