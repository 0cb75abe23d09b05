import Selectors.Basic

/-!
# Size

How many simple selectors, components and alternatives a selector is made of, those in nested lists
included. A part is smaller than the whole, and a nested list smaller than the pseudo that holds it.
-/
namespace Selectors

mutual

def Simple.size : Simple → Nat
  | .pseudo ⟨_, _, _, some ⟨alternatives, _⟩⟩ => Alternatives.size alternatives + 1
  | _ => 1
termination_by structural simple => simple

def Compound.size : Compound → Nat
  | [] => 0
  | simple :: rest => simple.size + Compound.size rest
termination_by structural compound => compound

def Chain.size : Chain → Nat
  | [] => 0
  | .compound members :: rest => Compound.size members + 1 + Chain.size rest
  | .combinator _ :: rest => 1 + Chain.size rest
termination_by structural chain => chain

def Alternatives.size : Alternatives → Nat
  | [] => 0
  | ⟨components, _⟩ :: rest => Chain.size components + 1 + Alternatives.size rest
termination_by structural alternatives => alternatives

end

theorem Compound.size_le_of_mem {compound : Compound} {simple : Simple} (member : simple ∈ compound) :
    simple.size ≤ compound.size := by
  induction compound with
  | nil => cases member
  | cons first rest ih =>
    rw [Compound.size]
    rcases List.mem_cons.mp member with rfl | member
    · omega
    · have := ih member
      omega

theorem Chain.size_lt_of_mem {chain : Chain} {members : Compound}
    (member : .compound members ∈ chain) : Compound.size members < chain.size := by
  induction chain with
  | nil => cases member
  | cons component rest ih =>
    rcases List.mem_cons.mp member with rfl | member
    · rw [Chain.size]
      omega
    · have := ih member
      cases component <;> simp only [Chain.size] <;> omega

theorem Alternatives.size_cons (complex : Complex) (rest : Alternatives) :
    Alternatives.size (complex :: rest) =
      Chain.size complex.components + 1 + Alternatives.size rest := by
  cases complex
  rfl

theorem Alternatives.size_lt_of_mem {alternatives : Alternatives} {complex : Complex}
    (member : complex ∈ alternatives) : Chain.size complex.components < alternatives.size := by
  induction alternatives with
  | nil => cases member
  | cons first rest ih =>
    rw [Alternatives.size_cons]
    rcases List.mem_cons.mp member with rfl | member
    · omega
    · have := ih member
      omega

/-- What is left out of a chain does not add to its size. -/
theorem Chain.size_le_of_sublist {part whole : Chain} (within : part.Sublist whole) :
    part.size ≤ whole.size := by
  induction within with
  | slnil => exact Nat.le_refl _
  | cons component _ ih => cases component <;> simp only [Chain.size] <;> omega
  | cons_cons component _ ih => cases component <;> simp only [Chain.size] <;> omega

@[simp] theorem Simple.size_pseudo (name : String) (isClass : Bool) (argument : Option String)
    (list : SelectorList) :
    (Simple.pseudo ⟨name, isClass, argument, some list⟩).size =
      Alternatives.size list.alternatives + 1 := by
  cases list
  rfl

/-- An alternative nested in a member is smaller than the compound. -/
theorem Compound.size_nested_lt {compound : Compound} {pseudo : Pseudo} {list : SelectorList}
    {complex : Complex} (member : .pseudo pseudo ∈ compound) (nested : pseudo.nested = some list)
    (alternative : complex ∈ list.alternatives) :
    Chain.size complex.components < compound.size := by
  obtain ⟨_, _, _, _⟩ := pseudo
  obtain rfl := nested
  have here := Compound.size_le_of_mem member
  rw [Simple.size_pseudo] at here
  have := Alternatives.size_lt_of_mem alternative
  omega

end Selectors
