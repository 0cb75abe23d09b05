import Selectors.Basic
import Selectors.Error

/-!
# Well-formed selectors

A list has an alternative, an alternative a component, a compound a member. The
checked constructors refuse anything else, so whatever is built with them alone
is well-formed at every depth.
-/
namespace Selectors

def Component.ofMembers (members : Compound) : Except Error Component :=
  if members.isEmpty then .error .emptyCompound else .ok (.compound members)

def Complex.ofComponents (components : Chain) (lineBreak : Bool) : Except Error Complex :=
  if components.isEmpty then .error .emptyComplex else .ok ⟨components, lineBreak⟩

/-- A list that was not written anywhere. -/
def SelectorList.ofAlternatives (alternatives : Alternatives) : Except Error SelectorList :=
  if alternatives.isEmpty then .error .emptyList else .ok ⟨alternatives, none⟩

theorem Component.ofMembers_of_ne_nil {members : Compound} (nonempty : members ≠ []) :
    Component.ofMembers members = .ok (.compound members) :=
  if_neg (by simpa using nonempty)

theorem Complex.ofComponents_of_ne_nil {components : Chain} (nonempty : components ≠ [])
    (lineBreak : Bool) : Complex.ofComponents components lineBreak = .ok ⟨components, lineBreak⟩ :=
  if_neg (by simpa using nonempty)

theorem SelectorList.ofAlternatives_of_ne_nil {alternatives : Alternatives}
    (nonempty : alternatives ≠ []) :
    SelectorList.ofAlternatives alternatives = .ok ⟨alternatives, none⟩ :=
  if_neg (by simpa using nonempty)

mutual

/-- No nested list holds anything empty. -/
def Simple.wellFormed : Simple → Bool
  | .pseudo ⟨_, _, _, some ⟨alternatives, _⟩⟩ =>
    !alternatives.isEmpty && Alternatives.wellFormed alternatives
  | _ => true
termination_by structural simple => simple

/-- The members are well-formed; the compound itself may be empty. -/
def Compound.wellFormed : Compound → Bool
  | [] => true
  | simple :: rest => simple.wellFormed && Compound.wellFormed rest
termination_by structural compound => compound

/-- The compounds are well-formed and not empty; the chain itself may be empty. -/
def Chain.wellFormed : Chain → Bool
  | [] => true
  | .compound members :: rest =>
    !members.isEmpty && Compound.wellFormed members && Chain.wellFormed rest
  | .combinator _ :: rest => Chain.wellFormed rest
termination_by structural chain => chain

/-- The alternatives are well-formed and not empty; there may be none of them. -/
def Alternatives.wellFormed : Alternatives → Bool
  | [] => true
  | ⟨components, _⟩ :: rest =>
    !components.isEmpty && Chain.wellFormed components && Alternatives.wellFormed rest
termination_by structural alternatives => alternatives

end

def SelectorList.wellFormed (list : SelectorList) : Bool :=
  !list.alternatives.isEmpty && Alternatives.wellFormed list.alternatives

theorem Compound.wellFormed_iff {members : Compound} :
    members.wellFormed = true ↔ ∀ simple ∈ members, simple.wellFormed = true := by
  induction members with
  | nil => simp [Compound.wellFormed]
  | cons simple rest ih => simp [Compound.wellFormed, ih]

theorem Chain.wellFormed_append (first second : Chain) :
    Chain.wellFormed (first ++ second) = (first.wellFormed && second.wellFormed) := by
  induction first with
  | nil => rfl
  | cons component rest ih => cases component <;> simp [Chain.wellFormed, ih, Bool.and_assoc]

theorem Simple.wellFormed_nesting_iff {name : String} {isClass : Bool} {argument : Option String}
    {alternatives : Alternatives} {span : Option Span} :
    Simple.wellFormed (.pseudo ⟨name, isClass, argument, some ⟨alternatives, span⟩⟩) = true ↔
      alternatives ≠ [] ∧ Alternatives.wellFormed alternatives = true := by
  simp [Simple.wellFormed]

theorem Chain.wellFormed_compound_iff {members : Compound} {rest : Chain} :
    Chain.wellFormed (.compound members :: rest) = true ↔
      members ≠ [] ∧ members.wellFormed = true ∧ rest.wellFormed = true := by
  simp [Chain.wellFormed, and_assoc]

theorem Alternatives.wellFormed_cons_iff {components : Chain} {lineBreak : Bool}
    {rest : Alternatives} :
    Alternatives.wellFormed (⟨components, lineBreak⟩ :: rest) = true ↔
      components ≠ [] ∧ components.wellFormed = true ∧ rest.wellFormed = true := by
  simp [Alternatives.wellFormed, and_assoc]

theorem Alternatives.wellFormed_iff {alternatives : Alternatives} :
    alternatives.wellFormed = true ↔
      ∀ complex ∈ alternatives,
        complex.components ≠ [] ∧ Chain.wellFormed complex.components = true := by
  induction alternatives with
  | nil => simp [Alternatives.wellFormed]
  | cons complex rest ih =>
    cases complex
    simp [Alternatives.wellFormed, ih]

theorem SelectorList.wellFormed_iff {list : SelectorList} :
    list.wellFormed = true ↔
      list.alternatives ≠ [] ∧ Alternatives.wellFormed list.alternatives = true := by
  simp [SelectorList.wellFormed]

end Selectors
