import Selectors.Basic

/-!
# Visibility

A placeholder is there to be extended and never reaches the output; a rule all
of whose alternatives need one would match nothing and is left out.
-/
namespace Selectors

mutual

/-- Placeholders are hidden, and so is a pseudo whose nested list is, except
for `:not`, which matches what its list does not. -/
def Simple.isHidden : Simple → Bool
  | .placeholder _ => true
  | .pseudo ⟨name, _, _, some ⟨alternatives, _⟩⟩ =>
    name != "not" && Alternatives.isHidden alternatives
  | _ => false
termination_by structural simple => simple

/-- One hidden member suffices. -/
def Compound.isHidden : Compound → Bool
  | [] => false
  | simple :: rest => simple.isHidden || Compound.isHidden rest
termination_by structural compound => compound

/-- One hidden compound suffices. -/
def Chain.isHidden : Chain → Bool
  | [] => false
  | .compound members :: rest => Compound.isHidden members || Chain.isHidden rest
  | .combinator _ :: rest => Chain.isHidden rest
termination_by structural chain => chain

/-- Every alternative is hidden. -/
def Alternatives.isHidden : Alternatives → Bool
  | [] => true
  | ⟨components, _⟩ :: rest => Chain.isHidden components && Alternatives.isHidden rest
termination_by structural alternatives => alternatives

end

def Complex.isHidden (complex : Complex) : Bool := Chain.isHidden complex.components

def SelectorList.isHidden (list : SelectorList) : Bool :=
  Alternatives.isHidden list.alternatives

theorem Compound.isHidden_eq_any (compound : Compound) :
    compound.isHidden = compound.any Simple.isHidden := by
  induction compound with
  | nil => rfl
  | cons simple rest ih => simp [Compound.isHidden, ih]

theorem Alternatives.isHidden_eq_all (alternatives : Alternatives) :
    alternatives.isHidden = alternatives.all Complex.isHidden := by
  induction alternatives with
  | nil => rfl
  | cons complex rest ih =>
    cases complex
    simp [Alternatives.isHidden, Complex.isHidden, ih]

theorem Chain.isHidden_append (first second : Chain) :
    Chain.isHidden (first ++ second) = (first.isHidden || second.isHidden) := by
  induction first with
  | nil => rfl
  | cons component rest ih => cases component <;> simp [Chain.isHidden, ih, Bool.or_assoc]

end Selectors
