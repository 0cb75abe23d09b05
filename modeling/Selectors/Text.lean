import Selectors.Basic

/-!
# Selectors as written

Members of a compound stand side by side, components are kept apart by one
space and alternatives by a comma and a space. Nothing is escaped: names,
arguments and attribute values are written as they were read.
-/
namespace Selectors

def Combinator.text : Combinator → String
  | child => ">"
  | nextSibling => "+"
  | subsequentSibling => "~"

/-- The colons and the name that a pseudo begins with. -/
def Pseudo.headText (name : String) (isClass : Bool) : String :=
  (if isClass then ":" else "::") ++ name

/-- A pseudo's parenthesis: the argument, the nested list or both. -/
def Pseudo.argumentText : Option String → Option String → String
  | none, none => ""
  | some argument, none => "(" ++ argument ++ ")"
  | none, some nested => "(" ++ nested ++ ")"
  | some argument, some nested => "(" ++ argument ++ " " ++ nested ++ ")"

mutual

def Simple.text : Simple → String
  | .parent suffix => "&" ++ suffix.getD ""
  | .placeholder name => "%" ++ name
  | .pseudo ⟨name, isClass, argument, none⟩ =>
    Pseudo.headText name isClass ++ Pseudo.argumentText argument none
  | .pseudo ⟨name, isClass, argument, some ⟨alternatives, _⟩⟩ =>
    Pseudo.headText name isClass ++
      Pseudo.argumentText argument (some (", ".intercalate (Alternatives.texts alternatives)))
  | .typeName name => name
  | .universal => "*"
  | .className name => "." ++ name
  | .idName name => "#" ++ name
  | .attr condition => condition.text
termination_by structural simple => simple

/-- The text of each member. -/
def Compound.texts : Compound → List String
  | [] => []
  | simple :: rest => simple.text :: Compound.texts rest
termination_by structural compound => compound

/-- The text of each component. -/
def Chain.texts : Chain → List String
  | [] => []
  | .compound members :: rest => String.join (Compound.texts members) :: Chain.texts rest
  | .combinator kind :: rest => kind.text :: Chain.texts rest
termination_by structural chain => chain

/-- The text of each alternative. -/
def Alternatives.texts : Alternatives → List String
  | [] => []
  | ⟨components, _⟩ :: rest => " ".intercalate (Chain.texts components) :: Alternatives.texts rest
termination_by structural alternatives => alternatives

end

def Pseudo.text (pseudo : Pseudo) : String := (Simple.pseudo pseudo).text

def Compound.text (compound : Compound) : String := String.join compound.texts

def Component.text : Component → String
  | compound members => Compound.text members
  | combinator kind => kind.text

def Chain.text (chain : Chain) : String := " ".intercalate chain.texts

def Complex.text (complex : Complex) : String := Chain.text complex.components

def Alternatives.text (alternatives : Alternatives) : String := ", ".intercalate alternatives.texts

def SelectorList.text (list : SelectorList) : String := Alternatives.text list.alternatives

theorem Compound.texts_eq_map (compound : Compound) : compound.texts = compound.map Simple.text := by
  induction compound with
  | nil => rfl
  | cons simple rest ih => simp [Compound.texts, ih]

theorem Chain.texts_eq_map (chain : Chain) : chain.texts = chain.map Component.text := by
  induction chain with
  | nil => rfl
  | cons component rest ih => cases component <;> simp [Chain.texts, Component.text, Compound.text, ih]

theorem Alternatives.texts_eq_map (alternatives : Alternatives) :
    alternatives.texts = alternatives.map Complex.text := by
  induction alternatives with
  | nil => rfl
  | cons complex rest ih =>
    cases complex
    simp [Alternatives.texts, Complex.text, Chain.text, ih]

end Selectors
